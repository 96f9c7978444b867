import AgentCpp.Hub.Spec
import AgentCpp.Lib.Files
import AgentCpp.Lib.Machine

/-!
# Downloads (`hub_http.cpp`)

`download_file` gets a URL into `<dest>.part`, goes on where an earlier call stopped with an HTTP
range, checks size and SHA-256 and renames to `dest`. What the server sends is arbitrary.
-/

namespace AgentCpp.Hub
open Lib Lib.Path List

structure DownloadOptions where
  expectedSize : ℕ := 0
  expectedSha256 : Bytes := []

/- One call of `on_data`: whether `cancel` is set before it, and whether `on_progress` says stop. -/
structure Piece where
  data : Bytes
  cancelled : Bool := false
  stopped : Bool := false

/- A response that is no redirect. `ending` is the error of a connection that breaks. -/
structure Response where
  status : ℕ
  contentRange : Bytes := []
  contentLength : Option Bytes := none
  body : List Piece := []
  ending : Option Error := none

/- What `http_get` meets: no response (connection, certificate, redirects), or one. -/
inductive Answer where
  | unreachable (e : Error)
  | response (r : Response)

structure Reply where
  status : ℕ
  errorBody : Bytes := []

structure DownloadState where
  offset : ℕ := 0
  written : ℕ := 0
  total : ℕ := 0
  rangeMismatch : Bool := false
  cancelled : Bool := false

/- Digits up to the first other byte, in 64 bits. -/
def parseU64 (s : Bytes) : ℕ := digitsVal (s.takeWhile isDigit) % 2 ^ 64

def Response.data (r : Response) : Bytes := (r.body.map (·.data)).flatten

/- `Content-Range: bytes <start>-<end>/<total>`. -/
def Response.start (r : Response) : ℕ := ((cutAt 0x20 r.contentRange).2.map parseU64).getD 0

/- The length the headers announce; zero is unknown. -/
def Response.announced (r : Response) : ℕ :=
  if r.status = 206 then
    match (cutAt slash r.contentRange).2 with
    | none => 0
    | some total => if total.head? = some 0x2A then 0 else parseU64 total
  else (r.contentLength.map parseU64).getD 0

def expectedTotal (opts : DownloadOptions) (r : Response) : ℕ :=
  if opts.expectedSize ≠ 0 then opts.expectedSize else r.announced

/- Opens the `.part` file; `false` aborts the transfer. -/
def downloadOnResponse (part : Bytes) (opts : DownloadOptions) (r : Response) (st : DownloadState) (d : Disk) :
    Disk × DownloadState × Bool :=
  if r.status = 206 then
    if r.start ≠ st.offset then (d, { st with rangeMismatch := true }, false)
    else (d.append part [], { st with total := expectedTotal opts r }, true)
  else if r.status = 200 then (d.put part [], { st with offset := 0, total := expectedTotal opts r }, true)
  else (d, st, true)

def downloadOnData (part : Bytes) : List Piece → DownloadState → Disk → Disk × DownloadState
  | [], st, d => (d, st)
  | piece :: rest, st, d =>
    if piece.cancelled then (d, { st with cancelled := true })
    else
      let st := { st with written := st.written + piece.data.length }
      if piece.stopped then (d.append part piece.data, { st with cancelled := true })
      else downloadOnData part rest st (d.append part piece.data)

/- The first bytes of a body that is no file, for the message. -/
def kMaxErrorBody : ℕ := 4096

def Response.reply (r : Response) (errorBody : Bytes) : Result Reply :=
  match r.ending with
  | some e => .error e
  | none => .ok { status := r.status, errorBody }

/- Another success status opens no file: a piece of its body is written to a null `FILE`. -/
def unopened (r : Response) (st : DownloadState) (d : Disk) : Option (Disk × DownloadState × Result Reply) :=
  match r.body with
  | [] => some (d, st, r.reply [])
  | piece :: _ => if piece.cancelled then some (d, { st with cancelled := true }, .ok { status := r.status }) else none

def httpGet (part : Bytes) (opts : DownloadOptions) (answer : Answer) (st : DownloadState) (d : Disk) :
    Option (Disk × DownloadState × Result Reply) :=
  match answer with
  | .unreachable e => some (d, st, .error e)
  | .response r =>
    match downloadOnResponse part opts r st d with
    | (d, st, false) => some (d, st, .ok { status := r.status })
    | (d, st, true) =>
      if r.status = 200 ∨ r.status = 206 then
        match downloadOnData part r.body st d with
        | (d, st) => some (d, st, if st.cancelled then .ok { status := r.status } else r.reply [])
      else if 200 ≤ r.status ∧ r.status < 300 then unopened r st d
      else some (d, st, r.reply (r.data.take kMaxErrorBody))

def statusMessage (reply : Reply) (what : Bytes) : Bytes :=
  lit "hub: " ++ what ++ lit " returned HTTP " ++ decimal reply.status ++
    (if reply.status = 401 ∨ reply.status = 403 then
      lit " (gated or private repo: accept the licence on the model page on huggingface.co, then set HF_TOKEN to a token with read access, or run `huggingface-cli login`)"
    else []) ++
    (if reply.status = 404 then lit " (not found)" else []) ++
    (if reply.status = 407 then lit " (proxy authentication required: put user:pass@ in HTTPS_PROXY)" else []) ++
    if reply.errorBody.isEmpty then [] else lit ": " ++ reply.errorBody.take 300

section Download

variable (sha256 : Bytes → Bytes)

def partPath (dest : Bytes) : Bytes := dest ++ lit ".part"

def finalizeDownload (dest : Bytes) (opts : DownloadOptions) (d : Disk) : Disk × Result Unit :=
  let part := partPath dest
  if opts.expectedSize ≠ 0 ∧ d.size part ≠ opts.expectedSize then
    (d, fail .networkError (lit "hub: size mismatch for " ++ dest ++ lit ": got " ++ decimal (d.size part) ++
      lit ", expected " ++ decimal opts.expectedSize))
  else
    match d.read part with
    | none =>
      if opts.expectedSha256 ≠ [] then (d, fail .filesystemError (lit "hub: cannot open " ++ part))
      else (d, fail .filesystemError (lit "hub: cannot move " ++ part ++ lit " to " ++ dest ++
        lit ": No such file or directory"))
    | some content =>
      if opts.expectedSha256 ≠ [] ∧ sha256 content ≠ opts.expectedSha256 then
        (d.remove part, fail .networkError (lit "hub: sha256 mismatch for " ++ dest ++ lit ": got " ++
          sha256 content ++ lit ", expected " ++ opts.expectedSha256))
      else (d.perform (.rename part dest content), .ok ())

/- The request and what follows it. `none` for the result is another attempt. -/
def transfer (dest : Bytes) (opts : DownloadOptions) (answer : Answer) (offset : ℕ) (d : Disk) :
    Option (Disk × Option (Result Unit)) :=
  let part := partPath dest
  match httpGet part opts answer { offset } d with
  | none => none
  | some (d, _, .error e) =>
    some (d, some (fail e.code (e.message ++ lit " (partial data kept in " ++ part ++ lit ")")))
  | some (d, st, .ok reply) =>
    if st.cancelled then
      some (d, some (fail .cancelled (lit "hub: download cancelled; partial data kept in " ++ part)))
    else if st.rangeMismatch ∨ reply.status = 416 then some (d.remove part, none)
    else if reply.status ≠ 200 ∧ reply.status ≠ 206 then
      some (d, some (fail .httpError (statusMessage reply (lit "download"))))
    else if st.total ≠ 0 ∧ (st.offset + st.written) % 2 ^ 64 < st.total then
      some (d, some (fail .networkError (lit "hub: connection closed early (" ++ decimal (st.offset + st.written) ++
        lit " of " ++ decimal st.total ++ lit " bytes); run again to resume")))
    else
      match finalizeDownload sha256 dest opts d with
      | (d, result) => some (d, some result)

def attempt (dest : Bytes) (opts : DownloadOptions) (answer : Answer) (d : Disk) :
    Option (Disk × Option (Result Unit)) :=
  let part := partPath dest
  if opts.expectedSize ≠ 0 ∧ opts.expectedSize < d.size part then
    transfer sha256 dest opts answer 0 (d.remove part)
  else if opts.expectedSize ≠ 0 ∧ d.size part = opts.expectedSize then
    match finalizeDownload sha256 dest opts d with
    | (d, .ok ()) => some (d, some (.ok ()))
    | (d, .error _) => transfer sha256 dest opts answer 0 (d.remove part)
  else transfer sha256 dest opts answer (d.size part) d

def attempts (url dest : Bytes) (opts : DownloadOptions) : List Answer → Disk → Option (Disk × Result Unit)
  | [], d => some (d, fail .httpError (lit "hub: server rejected resume twice for " ++ url))
  | answer :: later, d =>
    match attempt sha256 dest opts answer d with
    | none => none
    | some (d, some result) => some (d, result)
    | some (d, none) => attempts url dest opts later d

/- `server` gives the answers to the first and the second request. -/
def downloadFile (url dest : Bytes) (opts : DownloadOptions) (server : Answer × Answer) (d : Disk) :
    Option (Disk × Result Unit) := attempts sha256 url dest opts [server.1, server.2] d

structure Passes (opts : DownloadOptions) (content : Bytes) : Prop where
  size : opts.expectedSize ≠ 0 → content.length = opts.expectedSize
  digest : opts.expectedSha256 ≠ [] → sha256 content = opts.expectedSha256

/- The operations of a download: contents written to the `.part` file meet `W`, the one that
becomes `dest` meets `I`. -/
inductive DownloadOp (W I : Bytes → Prop) (dest : Bytes) : FileOp → Prop where
  | write {content : Bytes} (h : W content) : DownloadOp W I dest (.put (partPath dest) content)
  | discard : DownloadOp W I dest (.remove (partPath dest))
  | install {content : Bytes} (h : I content) : DownloadOp W I dest (.rename (partPath dest) dest content)

def PartMeets (W : Bytes → Prop) (dest : Bytes) (d : Disk) : Prop := ∀ c, d.read (partPath dest) = some c → W c

/- Which answers keep `W` and lead to `I`, whatever is in the `.part` file so far. -/
structure Suits (W I : Bytes → Prop) (opts : DownloadOptions) (answer : Answer) : Prop where
  whole : ∀ r, answer = .response r → r.status = 200 → ∀ t, t <+: r.data → W t
  range : ∀ r, answer = .response r → r.status = 206 → ∀ c, W c → c.length = r.start → ∀ t, t <+: r.data → W (c ++ t)
  arrived : ∀ r, answer = .response r → opts.expectedSize = 0 → ∀ c, W c → Passes sha256 opts c →
    (r.announced ≠ 0 → r.announced ≤ c.length % 2 ^ 64) → (r.status = 200 ∨ r.status = 206) → I c
  sized : opts.expectedSize ≠ 0 → ∀ c, W c → Passes sha256 opts c → I c

theorem partPath_ne (dest : Bytes) : partPath dest ≠ dest := by
  intro h
  have hlength := congrArg List.length h
  unfold partPath at hlength
  rw [length_append] at hlength
  have hpart : (lit ".part").length = 5 := by decide
  omega

variable {sha256} {W I : Bytes → Prop} {dest : Bytes} {opts : DownloadOptions}
variable {d d' : Disk} {r : Response} {st : DownloadState} {reply : Result Reply} {answer : Answer}
  {result : Option (Result Unit)} {url C : Bytes} {n : ℕ} {sized : Prop}

theorem partMeets_of_none (h : d.read (partPath dest) = none) : PartMeets W dest d := by
  intro c hc
  rw [h] at hc
  cases hc

theorem PartMeets.getD (h : PartMeets W dest d) (hnil : W []) : W ((d.read (partPath dest)).getD []) := by
  cases hread : d.read (partPath dest) with
  | none => exact hnil
  | some c => exact h c hread

variable {c tail : Bytes}

theorem partMeets_of_read (h : d.read (partPath dest) = some c) (hc : W c) : PartMeets W dest d := by
  intro c' hc'
  rw [h] at hc'
  cases hc'
  exact hc

/- What `on_data` leaves: a first part of the body after what was there. -/
structure Wrote (W I : Bytes → Prop) (dest before body : Bytes) (st : DownloadState) (d : Disk)
    (out : Disk × DownloadState) : Prop where
  did : Did (DownloadOp W I dest) d out.1
  more : ∃ t, t <+: body ∧ out.1.read (partPath dest) = some (before ++ t) ∧ out.2.written = st.written + t.length
  offset : out.2.offset = st.offset
  total : out.2.total = st.total
  rangeMismatch : out.2.rangeMismatch = st.rangeMismatch

theorem downloadOnData_wrote (body : List Piece) (st : DownloadState) (d : Disk) (before : Bytes)
    (hread : d.read (partPath dest) = some before) (hW : ∀ t, t <+: (body.map (·.data)).flatten → W (before ++ t)) :
    Wrote W I dest before (body.map (·.data)).flatten st d (downloadOnData (partPath dest) body st d) := by
  induction body generalizing st d before with
  | nil =>
    refine ⟨.refl d, ⟨[], nil_prefix, ?_, rfl⟩, rfl, rfl, rfl⟩
    rw [append_nil]
    exact hread
  | cons piece rest ih =>
    have hpiece : piece.data <+: ((piece :: rest).map (·.data)).flatten := prefix_append _ _
    have happend : (d.append (partPath dest) piece.data).read (partPath dest) = some (before ++ piece.data) := by
      rw [Disk.read_append, hread]
      rfl
    have hdid : Did (DownloadOp W I dest) d (d.append (partPath dest) piece.data) := by
      refine .perform d (.write ?_)
      rw [hread]
      exact hW _ hpiece
    unfold downloadOnData
    split
    · refine ⟨.refl d, ⟨[], nil_prefix, ?_, rfl⟩, rfl, rfl, rfl⟩
      rw [append_nil]
      exact hread
    split
    · exact ⟨hdid, ⟨piece.data, hpiece, happend, rfl⟩, rfl, rfl, rfl⟩
    · have hrest := ih { st with written := st.written + piece.data.length } _ _ happend fun t ht => by
        rw [append_assoc]
        exact hW _ ((prefix_append_right_inj piece.data).2 ht)
      obtain ⟨t, ht, hat, hwritten⟩ := hrest.more
      refine ⟨hdid.trans hrest.did, ⟨piece.data ++ t, (prefix_append_right_inj piece.data).2 ht, ?_, ?_⟩,
        hrest.offset, hrest.total, hrest.rangeMismatch⟩
      · rw [hat, append_assoc]
      · rw [hwritten, length_append, ← Nat.add_assoc]

/- After a request: when a file was received, its content and the total it is held against. -/
structure Received (W I : Bytes → Prop) (dest : Bytes) (opts : DownloadOptions) (answer : Answer) (d d' : Disk)
    (st : DownloadState) (reply : Result Reply) : Prop where
  did : Did (DownloadOp W I dest) d d'
  part : PartMeets W dest d'
  file : ∀ rep, reply = .ok rep → rep.status = 200 ∨ rep.status = 206 → st.rangeMismatch = false →
    ∃ r c, answer = .response r ∧ (r.status = 200 ∨ r.status = 206) ∧ d'.read (partPath dest) = some c ∧ W c ∧
      st.offset + st.written = c.length ∧ st.total = expectedTotal opts r

theorem reply_status {body : Bytes} {rep : Reply} (h : r.reply body = .ok rep) : rep.status = r.status := by
  unfold Response.reply at h
  split at h
  · cases h
  · cases h
    rfl

variable {st' : DownloadState}

theorem received_body {d₀ : Disk} {before : Bytes}
    (hstatus : r.status = 200 ∨ r.status = 206) (hdid : Did (DownloadOp W I dest) d₀ d)
    (hread : d.read (partPath dest) = some before) (hW : ∀ t, t <+: r.data → W (before ++ t))
    (hoffset : st.offset + st.written = before.length) (htotal : st.total = expectedTotal opts r)
    (hout : downloadOnData (partPath dest) r.body st d = (d', st')) :
    Received W I dest opts (.response r) d₀ d' st' reply := by
  have hwrote := downloadOnData_wrote (I := I) r.body st d before hread hW
  rw [hout] at hwrote
  obtain ⟨t, ht, hat, hwritten⟩ := hwrote.more
  refine ⟨hdid.trans hwrote.did, partMeets_of_read hat (hW t ht), fun rep _ _ _ => ?_⟩
  refine ⟨r, before ++ t, rfl, hstatus, hat, hW t ht, ?_, hwrote.total.trans htotal⟩
  have hsame := hwrote.offset
  simp only at hwritten hsame
  rw [length_append]
  omega

/- A response that touches no file: its status is no success with a file, or the range is wrong. -/
theorem received_nothing (hpart : PartMeets W dest d)
    (h : st.rangeMismatch = true ∨ ∀ rep, reply = .ok rep → rep.status ≠ 200 ∧ rep.status ≠ 206) :
    Received W I dest opts answer d d st reply := by
  refine ⟨.refl d, hpart, fun rep hrep hstatus hmatch => ?_⟩
  cases h with
  | inl h =>
    rw [h] at hmatch
    cases hmatch
  | inr h =>
    obtain ⟨hne, hne'⟩ := h rep hrep
    cases hstatus with
    | inl hs => exact absurd hs hne
    | inr hs => exact absurd hs hne'

theorem unopened_received (hstatus : ¬(r.status = 200 ∨ r.status = 206))
    (hpart : PartMeets W dest d) (h : unopened r st d = some (d', st', reply)) :
    Received W I dest opts (.response r) d d' st' reply := by
  unfold unopened at h
  split at h
  · cases h
    exact received_nothing hpart (.inr fun rep hrep => reply_status hrep ▸ not_or.1 hstatus)
  · split at h
    · cases h
      refine received_nothing hpart (.inr fun rep hrep => ?_)
      cases hrep
      exact not_or.1 hstatus
    · cases h

variable {offset start : ℕ}

theorem httpGet_received (hsuits : Suits sha256 W I opts answer) (hnil : W [])
    (hoffset : offset = d.size (partPath dest)) (hpart : PartMeets W dest d)
    (h : httpGet (partPath dest) opts answer { offset } d = some (d', st, reply)) :
    Received W I dest opts answer d d' st reply := by
  unfold httpGet at h
  cases answer with
  | unreachable e =>
    cases h
    exact received_nothing hpart (.inr nofun)
  | response r =>
    simp only at h
    unfold downloadOnResponse at h
    by_cases h206 : r.status = 206
    · rw [if_pos h206] at h
      by_cases hstart : r.start = offset
      · rw [if_neg (not_not_intro hstart)] at h
        simp only [h206] at h
        cases h
        have hsize : ((d.read (partPath dest)).getD []).length = r.start := hstart.symm ▸ hoffset.symm
        refine received_body (.inr h206) (.perform d (.write ?_)) (Disk.read_append _ _ _) (fun t ht => ?_) ?_ rfl rfl
        · rw [append_nil]
          exact hpart.getD hnil
        · rw [append_nil]
          exact hsuits.range r rfl h206 _ (hpart.getD hnil) hsize t ht
        · rw [append_nil, hsize]
          exact hstart.symm
      · rw [if_pos hstart] at h
        cases h
        exact received_nothing hpart (.inl rfl)
    by_cases h200 : r.status = 200
    · simp only [h200] at h
      cases h
      exact received_body (.inl h200) (.perform d (.write hnil)) (Disk.read_put _ _ _)
        (fun t ht => hsuits.whole r rfl h200 t ht) rfl rfl rfl
    · simp only [h200, h206, or_self, if_false] at h
      have hstatus : ¬(r.status = 200 ∨ r.status = 206) := not_or.2 ⟨h200, h206⟩
      split at h
      · exact unopened_received hstatus hpart h
      · cases h
        exact received_nothing hpart (.inr fun rep hrep => reply_status hrep ▸ not_or.1 hstatus)

theorem finalizeDownload_cases (dest : Bytes) (opts : DownloadOptions) (d : Disk) :
    (∃ e, finalizeDownload sha256 dest opts d = (d, .error e)) ∨
    (∃ e, finalizeDownload sha256 dest opts d = (d.remove (partPath dest), .error e)) ∨
    ∃ c, d.read (partPath dest) = some c ∧ Passes sha256 opts c ∧
      finalizeDownload sha256 dest opts d = (d.perform (.rename (partPath dest) dest c), .ok ()) := by
  unfold finalizeDownload
  simp only
  split
  · exact .inl ⟨_, rfl⟩
  next hsize =>
  split
  · split
    · exact .inl ⟨_, rfl⟩
    · exact .inl ⟨_, rfl⟩
  next c hread =>
  split
  · exact .inr (.inl ⟨_, rfl⟩)
  next hsha =>
  refine .inr (.inr ⟨c, hread, ⟨fun hne => ?_, fun hne => ?_⟩, rfl⟩)
  · rw [← Disk.size_of_read hread]
    exact not_not.1 fun h => hsize ⟨hne, h⟩
  · exact not_not.1 fun h => hsha ⟨hne, h⟩

structure Left (W I : Bytes → Prop) (dest : Bytes) (d d' : Disk) (result : Option (Result Unit)) : Prop where
  did : Did (DownloadOp W I dest) d d'
  part : PartMeets W dest d'
  installed : result = some (.ok ()) → ∃ c, d'.read dest = some c ∧ I c

theorem Left.after {d'' : Disk} (h : Did (DownloadOp W I dest) d d') (h' : Left W I dest d' d'' result) :
    Left W I dest d d'' result :=
  ⟨h.trans h'.did, h'.part, h'.installed⟩

theorem did_discard (d : Disk) : Did (DownloadOp W I dest) d (d.remove (partPath dest)) := .perform d .discard

theorem partMeets_remove (d : Disk) : PartMeets W dest (d.remove (partPath dest)) :=
  partMeets_of_none (Disk.read_remove _ _)

theorem finalizeDownload_left (hpart : PartMeets W dest d)
    (hI : ∀ c, d.read (partPath dest) = some c → W c → Passes sha256 opts c → I c) :
    Left W I dest d (finalizeDownload sha256 dest opts d).1 (some (finalizeDownload sha256 dest opts d).2) := by
  obtain ⟨e, h⟩ | ⟨e, h⟩ | ⟨c, hread, hpasses, h⟩ := @finalizeDownload_cases sha256 dest opts d
  · rw [h]
    exact ⟨.refl d, hpart, nofun⟩
  · rw [h]
    exact ⟨did_discard d, partMeets_remove d, nofun⟩
  · rw [h]
    have hc := hI c hread (hpart c hread) hpasses
    refine ⟨.perform d (.install hc), ?_, fun _ => ⟨c, Disk.read_rename _ _ _ _, hc⟩⟩
    exact partMeets_of_none (Disk.read_rename_source _ _ (partPath_ne dest))

theorem transfer_left (hsuits : Suits sha256 W I opts answer) (hnil : W [])
    (hoffset : offset = d.size (partPath dest)) (hpart : PartMeets W dest d)
    (h : transfer sha256 dest opts answer offset d = some (d', result)) : Left W I dest d d' result := by
  unfold transfer at h
  simp only at h
  split at h
  · cases h
  · next e hget =>
    cases h
    have hrec := httpGet_received hsuits hnil hoffset hpart hget
    exact ⟨hrec.did, hrec.part, nofun⟩
  · next d₁ st reply hget =>
    have hrec := httpGet_received hsuits hnil hoffset hpart hget
    split at h
    · cases h
      exact ⟨hrec.did, hrec.part, nofun⟩
    split at h
    · cases h
      exact ⟨hrec.did.trans (did_discard d₁), partMeets_remove d₁, nofun⟩
    next hmatch =>
    split at h
    · cases h
      exact ⟨hrec.did, hrec.part, nofun⟩
    next hstatus =>
    split at h
    · cases h
      exact ⟨hrec.did, hrec.part, nofun⟩
    next htotal =>
    cases h
    have hok : reply.status = 200 ∨ reply.status = 206 := by
      by_contra hno
      exact hstatus (not_or.1 hno)
    have hfalse : st.rangeMismatch = false := Bool.eq_false_iff.2 (not_or.1 hmatch).1
    obtain ⟨r, c, hanswer, hr, hread, hc, hlength, heq⟩ := hrec.file reply rfl hok hfalse
    refine .after hrec.did (finalizeDownload_left hrec.part fun c' hread' hc' hpasses => ?_)
    rw [hread] at hread'
    cases hread'
    by_cases hsize : opts.expectedSize = 0
    · refine hsuits.arrived r hanswer hsize c hc hpasses (fun hne => ?_) hr
      have hannounced : st.total = r.announced := by
        rw [heq]
        unfold expectedTotal
        rw [if_neg (not_not_intro hsize)]
      rw [hlength, hannounced] at htotal
      exact Nat.not_lt.1 fun hlt => htotal ⟨hne, hlt⟩
    · exact hsuits.sized hsize c hc hpasses

theorem attempt_left (hsuits : Suits sha256 W I opts answer) (hnil : W []) (hpart : PartMeets W dest d)
    (h : attempt sha256 dest opts answer d = some (d', result)) : Left W I dest d d' result := by
  have hfresh (d : Disk) : 0 = (d.remove (partPath dest)).size (partPath dest) := by
    unfold Disk.size
    rw [Disk.read_remove]
    rfl
  unfold attempt at h
  simp only at h
  split at h
  · exact .after (did_discard d) (transfer_left hsuits hnil (hfresh d) (partMeets_remove d) h)
  split at h
  · next hsize =>
    have hleft : Left W I dest d _ _ := finalizeDownload_left hpart fun c _ => hsuits.sized hsize.1 c
    split at h
    · next d₁ heq =>
      cases h
      rw [heq] at hleft
      exact hleft
    · next d₁ e heq =>
      rw [heq] at hleft
      exact .after (hleft.did.trans (did_discard d₁)) (transfer_left hsuits hnil (hfresh d₁) (partMeets_remove d₁) h)
  · exact transfer_left hsuits hnil rfl hpart h

variable {answers : List Answer}

theorem attempts_left (hsuits : ∀ a ∈ answers, Suits sha256 W I opts a) (hnil : W [])
    (hpart : PartMeets W dest d) {result : Result Unit}
    (h : attempts sha256 url dest opts answers d = some (d', result)) : Left W I dest d d' (some result) := by
  induction answers generalizing d with
  | nil =>
    cases h
    exact ⟨.refl _, hpart, nofun⟩
  | cons answer later ih =>
    unfold attempts at h
    split at h
    · cases h
    · next hattempt =>
      cases h
      exact attempt_left (hsuits answer mem_cons_self) hnil hpart hattempt
    · next d₁ hattempt =>
      have hleft := attempt_left (hsuits answer mem_cons_self) hnil hpart hattempt
      exact .after hleft.did (ih (fun a ha => hsuits a (mem_cons_of_mem _ ha)) hleft.part h)

/- Answers of a server with content `C`; `sized`: it tells the whole length. -/
inductive Serves (C : Bytes) (sized : Prop) : Answer → Prop where
  | unreachable (e : Error) : Serves C sized (.unreachable e)
  | whole {r : Response} (hstatus : r.status = 200) (hbody : r.data <+: C)
      (hlength : sized → r.contentLength = some (decimal C.length)) : Serves C sized (.response r)
  | range {r : Response} {start : ℕ} {tail : Bytes} (hstatus : r.status = 206)
      (hrange : r.contentRange = lit "bytes " ++ decimal start ++ 0x2D :: tail) (hstart : start ≤ C.length)
      (hbody : r.data <+: C.drop start)
      (hlength : sized → ∃ last, tail = decimal last ++ slash :: decimal C.length) : Serves C sized (.response r)
  | refused {r : Response} (hstatus : r.status < 200 ∨ 300 ≤ r.status) : Serves C sized (.response r)

structure DownloadCall where
  opts : DownloadOptions
  server : Answer × Answer

/- The length is sent, or `expected_size` is the length. -/
structure Served (C : Bytes) (call : DownloadCall) : Prop where
  first : Serves C (call.opts.expectedSize ≠ C.length) call.server.1
  second : Serves C (call.opts.expectedSize ≠ C.length) call.server.2

def RightSize (C : Bytes) (call : DownloadCall) : Prop :=
  call.opts.expectedSize = 0 ∨ call.opts.expectedSize = C.length

theorem not_mem_decimal {b : UInt8} (h : isDigit b = false) (n : ℕ) : b ∉ decimal n := by
  intro hb
  rw [decimal_digits n b hb] at h
  cases h

theorem parseU64_decimal (hn : n < 2 ^ 64) (htail : NoDigitHead tail) : parseU64 (decimal n ++ tail) = n := by
  unfold parseU64
  rw [takeWhile_digits _ _ (decimal_digits n) htail, digitsVal_decimal, Nat.mod_eq_of_lt hn]

theorem start_of_range (hstart : start < 2 ^ 64)
    (h : r.contentRange = lit "bytes " ++ decimal start ++ 0x2D :: tail) : r.start = start := by
  have hcut : r.contentRange = lit "bytes" ++ 0x20 :: (decimal start ++ 0x2D :: tail) := by
    rw [h]
    rfl
  unfold Response.start
  rw [hcut]
  exact parseU64_decimal hstart (noDigitHead_cons _ _ (by decide))

theorem announced_of_range {last : ℕ} (hn : n < 2 ^ 64) (hstatus : r.status = 206)
    (h : r.contentRange = lit "bytes " ++ decimal start ++ 0x2D :: (decimal last ++ slash :: decimal n)) :
    r.announced = n := by
  have hcut : r.contentRange = (lit "bytes " ++ decimal start ++ 0x2D :: decimal last) ++ slash :: decimal n := by
    rw [h, append_assoc _ (0x2D :: decimal last)]
    rfl
  have hslash : slash ∉ lit "bytes " ++ decimal start ++ 0x2D :: decimal last := by
    intro hmem
    cases mem_append.1 hmem with
    | inl hmem =>
      cases mem_append.1 hmem with
      | inl hmem => exact absurd hmem (by decide)
      | inr hmem => exact not_mem_decimal (by decide) start hmem
    | inr hmem =>
      cases mem_cons.1 hmem with
      | inl heq => exact absurd heq (by decide)
      | inr hmem => exact not_mem_decimal (by decide) last hmem
  have hstar : (decimal n).head? ≠ some 0x2A :=
    fun hhead => not_mem_decimal (by decide) n (mem_of_head? hhead)
  have hparse := parseU64_decimal hn noDigitHead_nil
  rw [append_nil] at hparse
  unfold Response.announced
  rw [if_pos hstatus, hcut, cutAt_append _ hslash]
  simp only [hstar, if_false, hparse]

theorem announced_of_whole (hn : n < 2 ^ 64) (hstatus : r.status = 200)
    (h : r.contentLength = some (decimal n)) : r.announced = n := by
  have hparse := parseU64_decimal hn noDigitHead_nil
  rw [append_nil] at hparse
  unfold Response.announced
  rw [if_neg (by omega), h]
  exact hparse

theorem prefix_append_drop {t : Bytes} (hc : c <+: C) (ht : t <+: C.drop c.length) : c ++ t <+: C := by
  obtain ⟨rest, rfl⟩ := hc
  rw [drop_left] at ht
  exact (prefix_append_right_inj c).2 ht

theorem Serves.announced (h : Serves C sized (.response r)) (hC : C.length < 2 ^ 64) (hsized : sized)
    (hstatus : r.status = 200 ∨ r.status = 206) : r.announced = C.length := by
  cases h with
  | whole h200 _ hlength => exact announced_of_whole hC h200 (hlength hsized)
  | range h206 hrange _ _ hlength =>
    obtain ⟨last, rfl⟩ := hlength hsized
    exact announced_of_range hC h206 hrange
  | refused hrefused => omega

theorem Serves.suits (hC : C.length < 2 ^ 64) (hsize : opts.expectedSize = 0 ∨ opts.expectedSize = C.length)
    (h : Serves C (opts.expectedSize ≠ C.length) answer) : Suits sha256 (· <+: C) (· = C) opts answer where
  whole := by
    rintro r rfl h200 t ht
    cases h with
    | whole _ hbody => exact ht.trans hbody
    | range h206 => omega
    | refused hrefused => omega
  range := by
    rintro r rfl h206 c hc hlength t ht
    cases h with
    | whole h200 => omega
    | range _ hrange hstart hbody =>
      rw [start_of_range (Nat.lt_of_le_of_lt hstart hC) hrange] at hlength
      exact prefix_append_drop hc (hlength ▸ ht.trans hbody)
    | refused hrefused => omega
  arrived := by
    rintro r rfl hzero c hc _ htotal hstatus
    refine hc.eq_of_length_le ?_
    by_cases hempty : C.length = 0
    · omega
    · have hannounced := h.announced hC (by omega) hstatus
      omega
  sized := by
    intro hne c hc hpasses
    have := hpasses.size hne
    exact hc.eq_of_length_le (by omega)

theorem httpGet_returns (h : Serves C sized answer) (part : Bytes) (opts : DownloadOptions)
    (st : DownloadState) (d : Disk) : ∃ out, httpGet part opts answer st d = some out := by
  unfold httpGet
  cases answer with
  | unreachable e => exact ⟨_, rfl⟩
  | response r =>
    simp only
    split
    · exact ⟨_, rfl⟩
    split
    · exact ⟨_, rfl⟩
    next hstatus =>
    split
    · cases h with
      | whole h200 => exact absurd (.inl h200) hstatus
      | range h206 => exact absurd (.inr h206) hstatus
      | refused hrefused => omega
    · exact ⟨_, rfl⟩

theorem transfer_returns (h : Serves C sized answer) (offset : ℕ) (d : Disk) :
    ∃ out, transfer sha256 dest opts answer offset d = some out := by
  unfold transfer
  obtain ⟨⟨d₁, st, reply⟩, hget⟩ := httpGet_returns h (partPath dest) opts { offset } d
  simp only [hget]
  cases reply with
  | error e => exact ⟨_, rfl⟩
  | ok reply =>
    simp only
    repeat' split
    all_goals exact ⟨_, rfl⟩

theorem attempt_returns (h : Serves C sized answer) (d : Disk) :
    ∃ out, attempt sha256 dest opts answer d = some out := by
  unfold attempt
  simp only
  split
  · exact transfer_returns h _ _
  split
  · split
    · exact ⟨_, rfl⟩
    · exact transfer_returns h _ _
  · exact transfer_returns h _ _

theorem attempts_returns (h : ∀ a ∈ answers, Serves C sized a) (d : Disk) :
    ∃ out, attempts sha256 url dest opts answers d = some out := by
  induction answers generalizing d with
  | nil => exact ⟨_, rfl⟩
  | cons answer later ih =>
    unfold attempts
    obtain ⟨⟨d₁, result⟩, hattempt⟩ : ∃ out, attempt sha256 dest opts answer d = some out :=
      attempt_returns (h answer mem_cons_self) d
    rw [hattempt]
    cases result with
    | none => exact ih (fun a ha => h a (mem_cons_of_mem _ ha)) d₁
    | some result => exact ⟨_, rfl⟩

theorem passes_suits (answer : Answer) : Suits sha256 (fun _ => True) (Passes sha256 opts) opts answer where
  whole := fun _ _ _ _ _ => trivial
  range := fun _ _ _ _ _ _ _ _ => trivial
  arrived := fun _ _ _ _ _ hpasses _ _ => hpasses
  sized := fun _ _ _ hpasses => hpasses

theorem downloadFile_left {server : Answer × Answer} {result : Result Unit}
    (h : downloadFile sha256 url dest opts server d = some (d', result)) :
    Left (fun _ => True) (Passes sha256 opts) dest d d' (some result) :=
  attempts_left (fun a _ => passes_suits a) trivial (fun _ _ => trivial) h

theorem DownloadOp.paths_eq {op : FileOp} (h : DownloadOp W I dest op) : ∀ p ∈ op.paths, p = partPath dest ∨ p = dest := by
  intro p hp
  cases h with
  | write _ => exact .inl (mem_singleton.1 hp)
  | discard => exact .inl (mem_singleton.1 hp)
  | install _ =>
    cases mem_cons.1 hp with
    | inl hp => exact .inl hp
    | inr hp => exact .inr (mem_singleton.1 hp)

variable (sha256) in
def downloadStep (url dest : Bytes) (d : Disk) (call : DownloadCall) : Option Disk :=
  (downloadFile sha256 url dest call.opts call.server d).map Prod.fst

theorem served_left (hC : C.length < 2 ^ 64) {call : DownloadCall} (h : Served C call)
    (hsize : RightSize C call) (url : Bytes) (hpart : PartMeets (· <+: C) dest d) :
    ∃ d' result, downloadFile sha256 url dest call.opts call.server d = some (d', result) ∧
      Left (· <+: C) (· = C) dest d d' (some result) := by
  have hserves : ∀ a ∈ [call.server.1, call.server.2], Serves C (call.opts.expectedSize ≠ C.length) a := by
    intro a ha
    cases mem_cons.1 ha with
    | inl ha => exact ha ▸ h.first
    | inr ha => exact mem_singleton.1 ha ▸ h.second
  obtain ⟨⟨d', result⟩, hcall⟩ := attempts_returns hserves d
  exact ⟨d', result, hcall, attempts_left (fun a ha => (hserves a ha).suits hC hsize) nil_prefix hpart hcall⟩

theorem run_served (hC : C.length < 2 ^ 64) (url : Bytes) {calls : List DownloadCall}
    (h : ∀ call ∈ calls, Served C call ∧ RightSize C call) (hpart : PartMeets (· <+: C) dest d) :
    ∃ d', run (downloadStep sha256 url dest) d calls = some d' ∧ Did (DownloadOp (· <+: C) (· = C) dest) d d' ∧
      PartMeets (· <+: C) dest d' := by
  induction calls generalizing d with
  | nil => exact ⟨d, rfl, .refl d, hpart⟩
  | cons call calls ih =>
    obtain ⟨hserved, hsize⟩ := h call mem_cons_self
    obtain ⟨d₁, result, hcall, hleft⟩ : ∃ d₁ result,
        downloadFile sha256 url dest call.opts call.server d = some (d₁, result) ∧ _ :=
      served_left hC hserved hsize url hpart
    obtain ⟨d', hrun, hdid, hpart'⟩ := ih (fun c hc => h c (mem_cons_of_mem _ hc)) hleft.part
    refine ⟨d', ?_, hleft.did.trans hdid, hpart'⟩
    change (Option.map Prod.fst _).bind _ = _
    rw [hcall]
    exact hrun

/-- Whatever the server does, `dest` is only replaced by a `.part` file that passed the checks, and a
call that returns ok leaves such a file there. If the server always has the content `C` and
`expected_size` is right or not given, the `.part` file only ever holds prefixes of `C`, and a call
that returns ok leaves `C`. -/
theorem downloadFile_integrity (sha256 : Bytes → Bytes) (url dest : Bytes) :
    (∀ opts server d d' result, downloadFile sha256 url dest opts server d = some (d', result) →
      Did (fun op => dest ∈ op.paths → ∃ c, op = .rename (partPath dest) dest c ∧ Passes sha256 opts c) d d' ∧
      (result = .ok () → ∃ c, d'.read dest = some c ∧ Passes sha256 opts c)) ∧
    ∀ C calls d, C.length < 2 ^ 64 → (∀ call ∈ calls, Served C call ∧ RightSize C call) →
      d.read (partPath dest) = none → ∃ d', run (downloadStep sha256 url dest) d calls = some d' ∧
        Did (fun op => ∀ c, op = .put (partPath dest) c → c <+: C) d d' ∧ PartMeets (· <+: C) dest d' ∧
        ∀ call, Served C call → RightSize C call →
          ∃ d'' result, downloadFile sha256 url dest call.opts call.server d' = some (d'', result) ∧
            Did (fun op => ∀ c, op = .put (partPath dest) c → c <+: C) d' d'' ∧
            (result = .ok () → d''.read dest = some C) := by
  have hput {C : Bytes} (op : FileOp) (hop : DownloadOp (· <+: C) (· = C) dest op) :
      ∀ c, op = .put (partPath dest) c → c <+: C := by
    rintro c rfl
    cases hop with
    | write hc => exact hc
  refine ⟨fun opts server d d' result hcall => ?_, fun C calls d hC hcalls hnone => ?_⟩
  · have hleft := downloadFile_left hcall
    refine ⟨hleft.did.mono fun op hop hdest => ?_, fun hok => hleft.installed (congrArg some hok)⟩
    cases hop with
    | write _ => exact absurd (mem_singleton.1 hdest).symm (partPath_ne dest)
    | discard => exact absurd (mem_singleton.1 hdest).symm (partPath_ne dest)
    | install hpasses => exact ⟨_, rfl, hpasses⟩
  · obtain ⟨d', hrun, hdid, hpart⟩ := run_served hC url hcalls (partMeets_of_none hnone)
    refine ⟨d', hrun, hdid.mono hput, hpart, fun call hserved hsize => ?_⟩
    obtain ⟨d'', result, hcall, hleft⟩ := served_left hC hserved hsize url hpart
    refine ⟨d'', result, hcall, hleft.did.mono hput, fun hok => ?_⟩
    obtain ⟨c, hread, rfl⟩ := hleft.installed (congrArg some hok)
    exact hread

def cutCall : DownloadCall where
  opts := {}
  server := (.response {
    status := 200
    contentLength := some (lit "3")
    body := [{ data := [7, 8] }]
    ending := some ⟨.networkError, lit "hub: request to h failed: Failed to read connection"⟩ },
    .unreachable ⟨.networkError, []⟩)

def resumingCall : DownloadCall where
  opts := { expectedSize := 3 }
  server := (.response { status := 206, contentRange := lit "bytes 2-2/3", body := [{ data := [9] }] },
    .unreachable ⟨.networkError, []⟩)

theorem cutCall_served : Served [7, 8, 9] cutCall :=
  ⟨.whole rfl (by decide) fun _ => by decide +kernel, .unreachable _⟩

theorem downloadFile_integrity_resumed :
    ∃ d d', run (downloadStep id [] (lit "m")) {} [cutCall] = some d ∧
      downloadFile id [] (lit "m") resumingCall.opts resumingCall.server d = some (d', .ok ()) ∧
      d'.read (lit "m") = some [7, 8, 9] := by
  have hrange : lit "bytes 2-2/3" = lit "bytes " ++ decimal 2 ++ 0x2D :: lit "2/3" := by decide +kernel
  have hresuming : Served [7, 8, 9] resumingCall :=
    ⟨.range rfl hrange (by decide) (by decide) fun _ => ⟨2, by decide +kernel⟩, .unreachable _⟩
  obtain ⟨d, hrun, -, -, hnext⟩ := (downloadFile_integrity id [] (lit "m")).2 [7, 8, 9] [cutCall] {} (by decide)
    (fun call hcall => mem_singleton.1 hcall ▸ ⟨cutCall_served, .inl rfl⟩) rfl
  obtain ⟨d', result, hcall, -, hok⟩ := hnext resumingCall hresuming (.inr rfl)
  have hends : ((run (downloadStep id [] (lit "m")) {} [cutCall]).bind fun d =>
      downloadFile id [] (lit "m") resumingCall.opts resumingCall.server d).any (fun out => out.2.isOk) = true := by
    decide +kernel
  rw [hrun, Option.bind_some, hcall] at hends
  cases result with
  | error e => cases hends
  | ok u => exact ⟨d, d', hrun, hcall, hok rfl⟩

/- The caller expects two bytes of a file of three. -/
def shortCall : DownloadCall where
  opts := { expectedSize := 2 }
  server := (.response { status := 200, contentLength := some (lit "3"), body := [{ data := [7, 8, 9] }] },
    .unreachable ⟨.networkError, []⟩)

/- The two bytes that a broken connection left are taken for the whole file. -/
theorem downloadFile_installs_prefix :
    Served [7, 8, 9] cutCall ∧ Served [7, 8, 9] shortCall ∧
      ∃ d d', run (downloadStep id [] (lit "m")) {} [cutCall] = some d ∧
        downloadFile id [] (lit "m") shortCall.opts shortCall.server d = some (d', .ok ()) ∧
        d'.read (lit "m") = some [7, 8] := by
  refine ⟨cutCall_served, ⟨.whole rfl (by decide) fun _ => by decide +kernel, .unreachable _⟩, ?_⟩
  have hends : ((run (downloadStep id [] (lit "m")) {} [cutCall]).bind fun d =>
      downloadFile id [] (lit "m") shortCall.opts shortCall.server d).any
        (fun out => out.2.isOk && out.1.read (lit "m") == some [7, 8]) = true := by
    decide +kernel
  obtain ⟨⟨d', result⟩, hcall, hout⟩ := (Option.any_eq_true _ _).1 hends
  obtain ⟨d, hrun, hcall⟩ := Option.bind_eq_some_iff.1 hcall
  obtain ⟨hok, hread⟩ := Bool.and_eq_true_iff.1 hout
  cases result with
  | error e => cases hok
  | ok u => exact ⟨d, d', hrun, hcall, eq_of_beq hread⟩

end Download

end AgentCpp.Hub
