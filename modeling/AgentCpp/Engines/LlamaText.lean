import AgentCpp.Lib.Bytes

/-!
# Prompts and answers of the llama engine (`llama_engine.cpp`)

Media markers in the message text, stop strings in the generated text, and tool calls that a
model wrote outside of its own format.
-/

namespace AgentCpp.Engines.LlamaText
open Lib List

/- `text.erase(at, n)` and `text.find(needle, at)`: what stands before `at` is not looked at again. -/
def eraseLoop (needle : Bytes) : ℕ → Bytes → Bytes
  | 0, text => text
  | fuel + 1, text =>
    match find needle text with
    | none => text
    | some n => text.take n ++ eraseLoop needle fuel (text.drop (n + needle.length))

def eraseAll (text needle : Bytes) : Bytes := if needle = [] then text else eraseLoop needle text.length text

inductive Part where
  | text (t : Bytes)
  | media
  | other

def partContent (marker : Bytes) : Part → Bytes
  | .text t => eraseAll t marker
  | .media => marker
  | .other => []

/- The content `build_inputs` makes of the parts, for a model with a projector. -/
def buildContent (marker : Bytes) (parts : List Part) : Bytes := parts.flatMap (partContent marker)

/- Where the scan of `tokenize_media_prompt` finds markers. -/
def scanMarkers (marker : Bytes) : ℕ → ℕ → Bytes → List ℕ
  | 0, _, _ => []
  | fuel + 1, base, rest =>
    match find marker rest with
    | none => []
    | some n => (base + n) :: scanMarkers marker fuel (base + n + marker.length) (rest.drop (n + marker.length))

def markerOffsets (marker content : Bytes) : List ℕ := scanMarkers marker (content.length + 1) 0 content

def mediaOffsets (marker : Bytes) : ℕ → List Part → List ℕ
  | _, [] => []
  | base, p :: parts =>
    let rest := mediaOffsets marker (base + (partContent marker p).length) parts
    match p with
    | .media => base :: rest
    | _ => rest

/- The text in front of each media part, and the text behind the last one. -/
def textRuns (marker : Bytes) : Bytes → List Part → List Bytes × Bytes
  | run, [] => ([], run)
  | run, .media :: parts => (run :: (textRuns marker [] parts).1, (textRuns marker [] parts).2)
  | run, p :: parts => textRuns marker (run ++ partContent marker p) parts

section Markers

variable {marker : Bytes}

def runOffsets (marker : Bytes) : ℕ → List Bytes → List ℕ
  | _, [] => []
  | base, r :: runs => (base + r.length) :: runOffsets marker (base + r.length + marker.length) runs

theorem textRuns_content (marker : Bytes) (parts : List Part) (run : Bytes) :
    ((textRuns marker run parts).1.flatMap (· ++ marker)) ++ (textRuns marker run parts).2 =
      run ++ buildContent marker parts := by
  induction parts generalizing run with
  | nil => simp [textRuns, buildContent]
  | cons p parts ih => cases p <;> simp_all [textRuns, buildContent, partContent]

theorem runOffsets_textRuns (parts : List Part) (run : Bytes) (base : ℕ) :
    runOffsets marker base (textRuns marker run parts).1 = mediaOffsets marker (base + run.length) parts := by
  induction parts generalizing run base with
  | nil => rfl
  | cons p parts ih => cases p <;> simp [textRuns, mediaOffsets, runOffsets, partContent, ih, Nat.add_assoc]

theorem find_marker_iff (hmarker : marker ≠ []) (run tail : Bytes) :
    find marker (run ++ marker ++ tail) = some run.length ↔ ¬marker <:+: run ++ marker.dropLast := by
  have hpos := length_pos_iff.2 hmarker
  have hcut : run ++ marker.dropLast <+: run ++ marker ++ tail := by
    rw [append_assoc, prefix_append_right_inj]
    exact (List.dropLast_prefix marker).trans (prefix_append ..)
  constructor
  · rintro hfind ⟨a, b, hab⟩
    -- the other one begins before the run ends
    have hlength := congrArg List.length hab
    simp only [length_append, length_dropLast] at hlength
    have hpre : marker <+: (run ++ marker ++ tail).drop a.length := by
      have hdrop := List.IsPrefix.drop hcut a.length
      rw [← hab, append_assoc, drop_left] at hdrop
      exact (prefix_append ..).trans hdrop
    obtain ⟨n, hn, hfound⟩ := find_le hpre (by simp; omega)
    cases hfind.symm.trans hfound
    omega
  · intro hrun
    refine find_first (by simp) (by simp) fun m hm hpre => hrun ?_
    -- an earlier one would end before the last byte of this one
    have hin := prefix_of_prefix_length_le hpre (List.IsPrefix.drop hcut m) (by simp; omega)
    exact hin.isInfix.trans (drop_suffix ..).isInfix

theorem scanMarkers_runs (hmarker : marker ≠ []) (last : Bytes) (fuel base : ℕ) {runs : List Bytes}
    (hfuel : runs.length < fuel) :
    scanMarkers marker fuel base (runs.flatMap (· ++ marker) ++ last) = runOffsets marker base runs ↔
      (∀ r ∈ runs, ¬marker <:+: r ++ marker.dropLast) ∧ ¬marker <:+: last := by
  induction runs generalizing fuel base with
  | nil =>
    cases fuel with
    | zero => cases hfuel
    | succ fuel =>
      simp only [flatMap_nil, nil_append, scanMarkers, runOffsets, not_mem_nil, false_implies, implies_true, true_and]
      constructor
      · rintro hnone ⟨a, b, rfl⟩
        have hpre : marker <+: (a ++ marker ++ b).drop a.length := by simp
        obtain ⟨n, -, hfind⟩ := find_le hpre (by simp)
        rw [hfind] at hnone
        cases hnone
      · intro hlast
        rw [find_none hlast]
  | cons r runs ih =>
    cases fuel with
    | zero => cases hfuel
    | succ fuel =>
      have hfind := find_marker_iff hmarker r (runs.flatMap (· ++ marker) ++ last)
      have hrest := ih fuel (base + r.length + marker.length) (Nat.lt_of_succ_lt_succ hfuel)
      simp only [flatMap_cons, append_assoc] at hfind ⊢
      rw [forall_mem_cons, and_assoc, ← hrest, ← hfind]
      simp only [scanMarkers, runOffsets]
      cases hn : find marker (r ++ (marker ++ (runs.flatMap (· ++ marker) ++ last))) with
      | none => simp
      | some n =>
        simp only [List.cons.injEq, Option.some.injEq, Nat.add_left_cancel_iff]
        refine and_congr_right fun heq => ?_
        rw [heq, ← append_assoc, drop_left' (length_append ..)]

theorem runs_le_length (hmarker : marker ≠ []) (runs : List Bytes) :
    runs.length ≤ (runs.flatMap (· ++ marker)).length := by
  have hpos := length_pos_iff.2 hmarker
  induction runs with
  | nil => simp
  | cons r runs ih =>
    simp only [flatMap_cons, length_append, length_cons]
    omega

/-- The scan finds exactly the markers of the media parts, each where its part was, if and only if no text between two
media parts, as `erase_all` leaves it, makes a marker with what follows. -/
theorem markers_align (marker : Bytes) (parts : List Part) (hmarker : marker ≠ []) :
    markerOffsets marker (buildContent marker parts) = mediaOffsets marker 0 parts ↔
      (∀ r ∈ (textRuns marker [] parts).1, ¬marker <:+: r ++ marker.dropLast) ∧
        ¬marker <:+: (textRuns marker [] parts).2 := by
  have hcontent := textRuns_content marker parts []
  rw [nil_append] at hcontent
  have hlength := runs_le_length hmarker (textRuns marker [] parts).1
  have hfuel : (textRuns marker [] parts).1.length < (buildContent marker parts).length + 1 := by
    rw [← hcontent, length_append]
    omega
  have hscan := scanMarkers_runs hmarker (textRuns marker [] parts).2 _ 0 hfuel
  rw [hcontent, runOffsets_textRuns] at hscan
  exact hscan

theorem markers_align_image :
    markerOffsets (lit "<m>") (buildContent (lit "<m>") [.text (lit "a<m>b"), .media, .text (lit "<")]) = [2] := by
  rw [(markers_align (lit "<m>") _ (by decide)).2 (by decide +kernel)]
  decide +kernel

/- The bytes around an erased marker close to a new one. -/
theorem forged_marker :
    markerOffsets (lit "<__media__>") (buildContent (lit "<__media__>") [.text (lit "<__me<__media__>dia__>")]) = [0] ∧
      mediaOffsets (lit "<__media__>") 0 [.text (lit "<__me<__media__>dia__>")] = [] := by
  decide +kernel

end Markers

/- A sampled token: its piece is empty if the vocabulary gives none. -/
structure Sampled where
  eog : Bool := false
  cancelled : Bool := false
  piece : Bytes

inductive Status where
  | ok | cancelled | decodeFailed
  deriving DecidableEq

/- `chunks` are the pieces handed to `on_chunk`. -/
structure Generated where
  status : Status := .ok
  text : Bytes
  chunks : List Bytes
  deriving DecidableEq

def endsWithStop (text : Bytes) : List Bytes → Option ℕ
  | [] => none
  | s :: stops =>
    if s ≠ [] ∧ s.length ≤ text.length ∧ text.drop (text.length - s.length) = s then some (text.length - s.length)
    else endsWithStop text stops

/- `generated.append` and `on_chunk`, for a token that has a piece. -/
def Generated.append (g : Generated) (piece : Bytes) : Generated :=
  if piece = [] then g else { g with text := g.text ++ piece, chunks := g.chunks ++ [piece] }

/- The loop of `generate`: `tok` is the token sampled last, `rest` what `next_token` gives until it fails. -/
def generateLoop (stops : List Bytes) : ℕ → Generated → Sampled → List Sampled → Generated
  | 0, g, _, _ => g
  | n + 1, g, tok, rest =>
    if tok.eog then g
    else if tok.cancelled then { g with status := .cancelled }
    else
      let g := g.append tok.piece
      match endsWithStop g.text stops with
      | some cut => { g with text := g.text.take cut }
      | none =>
        match rest with
        | [] => { g with status := .decodeFailed }
        | next :: rest => generateLoop stops n g next rest

/- The first token comes from the prefill. -/
def generate (stops : List Bytes) (maxTokens : ℕ) : List Sampled → Generated
  | [] => { status := .decodeFailed, text := [], chunks := [] }
  | tok :: rest => generateLoop stops maxTokens { text := [], chunks := [] } tok rest

section Stops

variable {stops : List Bytes}

def StopEnds (stops : List Bytes) (text : Bytes) : Prop := ∃ s ∈ stops, s <:+ text

variable {text : Bytes} {cut : ℕ}

theorem endsWithStop_some (h : endsWithStop text stops = some cut) :
    ∃ s ∈ stops, s ≠ [] ∧ s <:+ text ∧ cut = text.length - s.length := by
  induction stops with
  | nil => cases h
  | cons s stops ih =>
    unfold endsWithStop at h
    split at h
    · next hs =>
      cases h
      exact ⟨s, mem_cons_self .., hs.1, suffix_iff_eq_drop.2 hs.2.2.symm, rfl⟩
    · obtain ⟨t, ht, hrest⟩ := ih h
      exact ⟨t, mem_cons_of_mem _ ht, hrest⟩

theorem endsWithStop_eq (hne : ∀ s ∈ stops, s ≠ []) :
    endsWithStop text stops = (stops.find? fun s => s <:+ text).map (text.length - ·.length) := by
  induction stops with
  | nil => rfl
  | cons s stops ih =>
    have hend : (s ≠ [] ∧ s.length ≤ text.length ∧ text.drop (text.length - s.length) = s) ↔ s <:+ text :=
      ⟨fun h => suffix_iff_eq_drop.2 h.2.2.symm,
        fun h => ⟨hne s mem_cons_self, h.length_le, (suffix_iff_eq_drop.1 h).symm⟩⟩
    unfold endsWithStop
    simp only [hend, find?_cons]
    by_cases hs : s <:+ text
    · rw [if_pos hs, decide_eq_true hs]
      rfl
    · rw [if_neg hs, decide_eq_false hs]
      exact ih fun s hs => hne s (mem_cons_of_mem _ hs)

theorem stopEnds_of_find? {s : Bytes} (h : (stops.find? fun s => s <:+ text) = some s) : s ∈ stops ∧ s <:+ text := by
  refine ⟨mem_of_find?_eq_some h, ?_⟩
  have hsuf := find?_some h
  exact of_decide_eq_true hsuf

theorem endsWithStop_none (hne : ∀ s ∈ stops, s ≠ []) (h : endsWithStop text stops = none) : ¬StopEnds stops text := by
  rw [endsWithStop_eq hne, Option.map_eq_none_iff, find?_eq_none] at h
  rintro ⟨s, hs, hsuf⟩
  exact h s hs (decide_eq_true hsuf)

def Clean (stops : List Bytes) (text : Bytes) : Prop := ∀ k ≤ text.length, ¬StopEnds stops (text.take k)

theorem Clean.not_infix (h : Clean stops text) : ∀ s ∈ stops, ¬s <:+: text := by
  intro s hs hin
  obtain ⟨t, hsuf, hpre⟩ := infix_iff_suffix_prefix.1 hin
  refine h t.length hpre.length_le ⟨s, hs, ?_⟩
  rwa [← prefix_iff_eq_take.1 hpre]

/- What the answer is: no stop string in the text, and if the pieces hold one, the text is what precedes one that
ends first. -/
structure Stopped (stops : List Bytes) (g : Generated) : Prop where
  none : ∀ s ∈ stops, ¬s <:+: g.text
  first : (∃ s ∈ stops, s <:+: g.chunks.flatten) → ∃ s ∈ stops, ∃ e ≤ g.chunks.flatten.length,
    s <:+ g.chunks.flatten.take e ∧ (∀ k < e, ¬StopEnds stops (g.chunks.flatten.take k)) ∧
      g.text = g.chunks.flatten.take (e - s.length)

/- The pieces of an answer that no stop string ends. -/
def produced (maxTokens : ℕ) (toks : List Sampled) : List Bytes :=
  ((toks.takeWhile fun t => !t.eog && !t.cancelled).take maxTokens).map Sampled.piece

/- The text up to the first piece that ends with a stop string, and where the first listed one of these begins. -/
def firstCut (stops : List Bytes) : Bytes → List Bytes → Option (Bytes × ℕ)
  | _, [] => none
  | text, p :: pieces =>
    match endsWithStop (text ++ p) stops with
    | some cut => some (text ++ p, cut)
    | none => firstCut stops (text ++ p) pieces

/- A stop string ends at `e`, and none before. -/
def FirstEnd (stops : List Bytes) (text : Bytes) (e : ℕ) : Prop :=
  e ≤ text.length ∧ StopEnds stops (text.take e) ∧ ∀ k < e, ¬StopEnds stops (text.take k)

theorem exists_firstEnd {k : ℕ} (hk : k ≤ text.length) (h : StopEnds stops (text.take k)) :
    ∃ e ≤ k, FirstEnd stops text e := by
  classical
  have hex : ∃ e, StopEnds stops (text.take e) := ⟨k, h⟩
  have hle := Nat.find_min' hex h
  exact ⟨Nat.find hex, hle, hle.trans hk, Nat.find_spec hex, fun m hm => Nat.find_min hex hm⟩

theorem FirstEnd.unique {e e' : ℕ} (h : FirstEnd stops text e) (h' : FirstEnd stops text e') : e = e' := by
  rcases Nat.lt_trichotomy e e' with hlt | heq | hlt
  · exact absurd h.2.1 (h'.2.2 e hlt)
  · exact heq
  · exact absurd h'.2.1 (h.2.2 e' hlt)

theorem firstCut_none (hne : ∀ s ∈ stops, s ≠ []) {pieces : List Bytes} (h : firstCut stops text pieces = none) :
    ∀ i < pieces.length, ¬StopEnds stops (text ++ (pieces.take (i + 1)).flatten) := by
  induction pieces generalizing text with
  | nil => exact nofun
  | cons p pieces ih =>
    unfold firstCut at h
    cases hstop : endsWithStop (text ++ p) stops with
    | some c => rw [hstop] at h; cases h
    | none =>
      rw [hstop] at h
      intro i hi
      cases i with
      | zero => simpa using endsWithStop_none hne hstop
      | succ i => simpa using ih h i (Nat.lt_of_succ_lt_succ hi)

theorem firstCut_some (hne : ∀ s ∈ stops, s ≠ []) {T : Bytes} {pieces : List Bytes}
    (h : firstCut stops text pieces = some (T, cut)) :
    endsWithStop T stops = some cut ∧ ∃ i < pieces.length, T = text ++ (pieces.take (i + 1)).flatten ∧
      ∀ j < i, ¬StopEnds stops (text ++ (pieces.take (j + 1)).flatten) := by
  induction pieces generalizing text with
  | nil => cases h
  | cons p pieces ih =>
    unfold firstCut at h
    cases hstop : endsWithStop (text ++ p) stops with
    | some c =>
      rw [hstop] at h
      cases h
      exact ⟨hstop, 0, Nat.succ_pos _, by simp, nofun⟩
    | none =>
      rw [hstop] at h
      obtain ⟨hends, i, hi, hT, hmin⟩ := ih h
      refine ⟨hends, i + 1, Nat.succ_lt_succ hi, by simpa using hT, fun j hj => ?_⟩
      cases j with
      | zero => simpa using endsWithStop_none hne hstop
      | succ j => simpa using hmin j (Nat.lt_of_succ_lt_succ hj)

theorem Generated.append_text (g : Generated) (piece : Bytes) : (g.append piece).text = g.text ++ piece := by
  unfold Generated.append
  split
  · next h => rw [h, append_nil]
  · rfl

theorem Generated.append_chunks (g : Generated) (piece : Bytes) :
    (g.append piece).chunks.flatten = g.chunks.flatten ++ piece := by
  unfold Generated.append
  split
  · next h => rw [h, append_nil]
  · rw [flatten_concat]

/- The text and the chunks of an answer to the pieces `pieces`. -/
def Cuts (stops : List Bytes) (text : Bytes) (pieces : List Bytes) (g : Generated) : Prop :=
  match firstCut stops text pieces with
  | some (text, cut) => g.text = text.take cut ∧ g.chunks.flatten = text
  | none => g.text = text ++ pieces.flatten ∧ g.chunks.flatten = text ++ pieces.flatten

theorem generateLoop_cuts (stops : List Bytes) (n : ℕ) (g : Generated) (tok : Sampled) (rest : List Sampled)
    (htext : g.chunks.flatten = g.text) :
    Cuts stops g.text (produced n (tok :: rest)) (generateLoop stops n g tok rest) := by
  induction n generalizing g tok rest with
  | zero => simp [Cuts, produced, firstCut, generateLoop, htext]
  | succ n ih =>
    by_cases heog : tok.eog
    · simp [Cuts, produced, firstCut, generateLoop, htext, heog]
    by_cases hcancelled : tok.cancelled
    · simp [Cuts, produced, firstCut, generateLoop, htext, heog, hcancelled]
    have hpieces : produced (n + 1) (tok :: rest) = tok.piece :: produced n rest := by
      simp [produced, heog, hcancelled]
    have hnext : (g.append tok.piece).chunks.flatten = (g.append tok.piece).text := by
      rw [g.append_chunks, g.append_text, htext]
    rw [hpieces]
    simp only [Cuts, firstCut, generateLoop, heog, hcancelled, Bool.false_eq_true, if_false]
    rw [g.append_text]
    cases hstop : endsWithStop (g.text ++ tok.piece) stops with
    | some cut => exact ⟨rfl, hnext.trans (g.append_text _)⟩
    | none =>
      cases rest with
      | nil => simp [produced, firstCut, hnext, g.append_text]
      | cons next rest =>
        have hrest := ih (g.append tok.piece) next rest hnext
        rw [g.append_text] at hrest
        simpa [Cuts] using hrest

theorem generate_cuts (stops : List Bytes) (maxTokens : ℕ) (toks : List Sampled) :
    Cuts stops [] (produced maxTokens toks) (generate stops maxTokens toks) := by
  cases toks with
  | nil => simp [Cuts, produced, firstCut, generate]
  | cons tok rest => exact generateLoop_cuts stops maxTokens { text := [], chunks := [] } tok rest rfl

/- The loop's own cut has to be where a stop string that ends first begins. -/
theorem flatten_take (i : ℕ) (pieces : List Bytes) : (pieces.take i).flatten <+: pieces.flatten :=
  IsPrefix.flatten <| take_prefix i pieces

theorem flatten_take_mono {i k : ℕ} (h : i ≤ k) (pieces : List Bytes) :
    (pieces.take i).flatten <+: (pieces.take k).flatten := by
  have hpre := flatten_take i (pieces.take k)
  rwa [take_take, Nat.min_eq_left h] at hpre

theorem stopped_iff_firstCut (hne : ∀ s ∈ stops, s ≠ []) {pieces : List Bytes} {g : Generated}
    (hgen : Cuts stops [] pieces g) : Stopped stops g ↔ ∀ e, FirstEnd stops pieces.flatten e → ∃ text cut,
      firstCut stops [] pieces = some (text, cut) ∧ ∃ s ∈ stops, s <:+ pieces.flatten.take e ∧ cut = e - s.length := by
  unfold Cuts at hgen
  cases hcut : firstCut stops [] pieces with
  | none =>
    simp only [hcut] at hgen
    obtain ⟨htext, hchunks⟩ := hgen
    constructor
    · rintro h e ⟨-, ⟨s, hs, hsuf⟩, -⟩
      have hseen := List.take_prefix e pieces.flatten
      have hin : s <:+: g.text := htext ▸ hsuf.isInfix.trans hseen.isInfix
      exact absurd hin (h.none s hs)
    · intro h
      have hclean : Clean stops g.text := by
        intro k hk hends
        rw [htext] at hk hends
        obtain ⟨e, -, he⟩ := exists_firstEnd hk hends
        obtain ⟨_, _, hsome, -⟩ := h e he
        cases hsome
      exact ⟨hclean.not_infix, fun ⟨s, hs, hin⟩ => absurd (hchunks.trans htext.symm ▸ hin) (hclean.not_infix s hs)⟩
  | some found =>
    obtain ⟨T, cut⟩ := found
    simp only [hcut] at hgen
    obtain ⟨htext, hchunks⟩ := hgen
    obtain ⟨hends, i, -, hT, -⟩ := firstCut_some hne hcut
    have hpre : T <+: pieces.flatten := by
      rw [hT, nil_append]
      exact flatten_take _ _
    obtain ⟨last, hlast, -, hsuf, hcutEnd⟩ := endsWithStop_some hends
    -- the text seen so far begins with the first end of them all
    have htake : ∀ k ≤ T.length, T.take k = pieces.flatten.take k := by
      intro k hk
      rw [prefix_iff_eq_take.1 hpre, take_take, Nat.min_eq_left hk]
    have hwhole : StopEnds stops (pieces.flatten.take T.length) :=
      ⟨last, hlast, by rwa [← htake _ le_rfl, take_length]⟩
    obtain ⟨e, hle, he⟩ := exists_firstEnd hpre.length_le hwhole
    constructor
    · intro h e' he'
      obtain ⟨s, hs, d, hd, hsd, hmin, hcutText⟩ := h.first ⟨last, hlast, hchunks ▸ hsuf.isInfix⟩
      rw [hchunks] at hd hsd hmin hcutText
      have hfirst : FirstEnd stops pieces.flatten d :=
        ⟨hd.trans hpre.length_le, ⟨s, hs, htake d hd ▸ hsd⟩, fun k hk => htake k (by omega) ▸ hmin k hk⟩
      obtain rfl := hfirst.unique he'
      refine ⟨T, cut, rfl, s, hs, htake d hd ▸ hsd, ?_⟩
      have hlength := congrArg List.length (htext.symm.trans hcutText)
      simp only [length_take] at hlength
      omega
    · intro h
      obtain ⟨_, _, ⟨⟩, s, hs, hse, rfl⟩ := h e he
      have hpos := length_pos_iff.2 (hne s hs)
      have hfits := hse.length_le
      rw [length_take] at hfits
      refine ⟨Clean.not_infix fun k hk => ?_, fun _ => ⟨s, hs, e, hchunks ▸ hle, ?_, fun k hk => ?_, ?_⟩⟩
      · rw [htext, length_take] at hk
        rw [htext, take_take, Nat.min_eq_left (by omega), htake k (by omega)]
        exact he.2.2 k (by omega)
      · rwa [hchunks, htake e hle]
      · rw [hchunks, htake k (by omega)]
        exact he.2.2 k hk
      · rw [htext, hchunks]

/- `p` is where a piece ends. -/
def EndsPiece (pieces : List Bytes) (p : ℕ) : Prop := ∃ i < pieces.length, p = (pieces.take (i + 1)).flatten.length

/- A stop string that ends at `e` goes on in a longer one: the first listed of those that end at `p`, which is the first
end of a piece at which one ends. -/
def GoesOn (stops : List Bytes) (pieces : List Bytes) (e : ℕ) : Prop :=
  ∃ p > e, EndsPiece pieces p ∧ (∀ q < p, EndsPiece pieces q → ¬StopEnds stops (pieces.flatten.take q)) ∧
    ∃ s ∈ stops, s <:+ pieces.flatten.take e ∧
      ∃ longer, (stops.find? fun t => t <:+ pieces.flatten.take p) = some longer ∧ p - longer.length = e - s.length

theorem EndsPiece.take {pieces : List Bytes} (i : ℕ) :
    pieces.flatten.take (pieces.take (i + 1)).flatten.length = (pieces.take (i + 1)).flatten :=
  (prefix_iff_eq_take.1 (flatten_take (i + 1) pieces)).symm

/- The cut is made at the first end of a piece at which a stop string ends. -/
theorem firstCut_at (hne : ∀ s ∈ stops, s ≠ []) {pieces : List Bytes} {p : ℕ} {found : Bytes} (hp : EndsPiece pieces p)
    (hfound : (stops.find? fun t => t <:+ pieces.flatten.take p) = some found)
    (hfirst : ∀ q < p, EndsPiece pieces q → ¬StopEnds stops (pieces.flatten.take q)) :
    firstCut stops [] pieces = some (pieces.flatten.take p, p - found.length) := by
  obtain ⟨k, hk, rfl⟩ := hp
  rw [EndsPiece.take] at hfound ⊢
  have hends : StopEnds stops (pieces.take (k + 1)).flatten := ⟨found, stopEnds_of_find? hfound⟩
  cases hcut : firstCut stops [] pieces with
  | none => exact absurd hends (firstCut_none hne hcut k hk)
  | some place =>
    obtain ⟨T, cut⟩ := place
    obtain ⟨hstop, i, hi, hT, hmin⟩ := firstCut_some hne hcut
    rw [nil_append] at hT
    obtain ⟨s, hs, -, hsuf, -⟩ := endsWithStop_some hstop
    have hle : i ≤ k := Nat.le_of_not_lt fun hlt => hmin k hlt hends
    have hpre : T <+: (pieces.take (k + 1)).flatten := hT ▸ flatten_take_mono (by omega) pieces
    have hsame : T = (pieces.take (k + 1)).flatten := by
      refine hpre.eq_of_length (Nat.le_antisymm hpre.length_le (Nat.le_of_not_lt fun hlt => ?_))
      refine hfirst T.length hlt ⟨i, hi, by rw [hT]⟩ ⟨s, hs, ?_⟩
      rwa [hT, EndsPiece.take, ← hT]
    rw [endsWithStop_eq hne, hsame, hfound] at hstop
    cases hstop
    rw [hsame]

theorem firstCut_right_iff (hne : ∀ s ∈ stops, s ≠ []) {pieces : List Bytes} {e : ℕ}
    (he : FirstEnd stops pieces.flatten e) :
    (∃ text cut, firstCut stops [] pieces = some (text, cut) ∧
        ∃ s ∈ stops, s <:+ pieces.flatten.take e ∧ cut = e - s.length) ↔
      EndsPiece pieces e ∨ GoesOn stops pieces e := by
  constructor
  · rintro ⟨T, cut, hcut, s, hs, hse, hright⟩
    obtain ⟨hstop, i, hi, hT, hmin⟩ := firstCut_some hne hcut
    rw [nil_append] at hT
    have hat : pieces.flatten.take T.length = T := by rw [hT, EndsPiece.take]
    rw [endsWithStop_eq hne, Option.map_eq_some_iff] at hstop
    obtain ⟨found, hfound, rfl⟩ := hstop
    have hends : StopEnds stops T := ⟨found, stopEnds_of_find? hfound⟩
    have hle : e ≤ T.length := Nat.le_of_not_lt fun hlt => he.2.2 _ hlt (by rwa [hat])
    have hpiece : EndsPiece pieces T.length := ⟨i, hi, by rw [hT]⟩
    rcases Nat.eq_or_lt_of_le hle with heq | hlt
    · exact Or.inl (heq ▸ hpiece)
    refine Or.inr ⟨T.length, hlt, hpiece, ?_, s, hs, hse, found, by rw [hat]; exact hfound, hright⟩
    rintro q hq ⟨j, hj, rfl⟩
    rw [EndsPiece.take]
    refine hmin j (Nat.lt_of_not_le fun hij => ?_)
    have hpre : T <+: (pieces.take (j + 1)).flatten := hT ▸ flatten_take_mono (by omega) pieces
    exact absurd hpre.length_le (by omega)
  · rintro (hpiece | ⟨p, -, hpiece, hfirst, s, hs, hse, longer, hlonger, hbegins⟩)
    · have hfirst : ∀ q < e, EndsPiece pieces q → ¬StopEnds stops (pieces.flatten.take q) := fun q hq _ => he.2.2 q hq
      obtain ⟨s, hs, hsuf⟩ := he.2.1
      cases hfound : stops.find? fun t => t <:+ pieces.flatten.take e with
      | none => exact absurd (decide_eq_true hsuf) (find?_eq_none.1 hfound s hs)
      | some found =>
        obtain ⟨hmem, hend⟩ := stopEnds_of_find? hfound
        exact ⟨_, _, firstCut_at hne hpiece hfound hfirst, found, hmem, hend, rfl⟩
    · exact ⟨_, _, firstCut_at hne hpiece hlonger hfirst, s, hs, hse, hbegins⟩

/-- The answer holds no stop string and ends before one that ends first, if and only if the first end of a stop string
in the pieces is the end of a piece, or that stop string goes on to one that is. -/
theorem generate_stops (stops : List Bytes) (hne : ∀ s ∈ stops, s ≠ []) (maxTokens : ℕ) (toks : List Sampled) :
    Stopped stops (generate stops maxTokens toks) ↔
      ∀ e, FirstEnd stops (produced maxTokens toks).flatten e →
        EndsPiece (produced maxTokens toks) e ∨ GoesOn stops (produced maxTokens toks) e := by
  rw [stopped_iff_firstCut hne (generate_cuts stops maxTokens toks)]
  exact forall₂_congr fun e he => firstCut_right_iff hne he

theorem generate_stops_word :
    (generate [lit "!"] 3 [⟨false, false, lit "x"⟩, ⟨false, false, []⟩, ⟨false, false, lit "!"⟩]) =
        ⟨.ok, lit "x", [lit "x", lit "!"]⟩ ∧
      Stopped [lit "!"] (generate [lit "!"] 3
        [⟨false, false, lit "x"⟩, ⟨false, false, []⟩, ⟨false, false, lit "!"⟩]) := by
  refine ⟨by decide +kernel, (generate_stops _ (by decide +kernel) 3 _).2 fun e he => ?_⟩
  have honly : ∀ e ≤ 2, (∃ s ∈ [lit "!"], s <:+ (lit "x!").take e) → e = 2 := by decide +kernel
  obtain rfl := honly e he.1 he.2.1
  exact Or.inl ⟨2, by decide +kernel, by decide +kernel⟩

/- The stop string ends inside of a piece, and is returned. -/
theorem generate_passes_stop :
    (generate [lit "!"] 1 [⟨false, false, lit "a!b"⟩, ⟨true, false, []⟩]) = ⟨.ok, lit "a!b", [lit "a!b"]⟩ ∧
      lit "!" <:+: lit "a!b" :=
  ⟨by decide +kernel, [0x61], [0x62], by decide⟩

end Stops

/- What the JSON parser reads in an object: the strings and the raw text of the two fields. -/
structure LooseObject where
  name : Option Bytes
  argumentsString : Option Bytes := none
  argumentsRaw : Option Bytes := none

structure ToolCall where
  name : Bytes
  arguments : Bytes
  deriving DecidableEq

def openBrace : UInt8 := 0x7B

/- How far it is to the brace that closes the first one, outside of strings. -/
def closing : ℕ → Bool → Bool → Bytes → Option ℕ
  | _, _, _, [] => none
  | depth, true, esc, c :: rest =>
    (if esc then closing depth true false rest
      else if c = 0x5C then closing depth true true rest
      else closing depth (c ≠ 0x22) false rest).map (· + 1)
  | depth, false, esc, c :: rest =>
    if c = 0x22 then (closing depth true esc rest).map (· + 1)
    else if c = openBrace then (closing (depth + 1) false esc rest).map (· + 1)
    else if c = 0x7D then if depth - 1 = 0 then some 0 else (closing (depth - 1) false esc rest).map (· + 1)
    else (closing depth false esc rest).map (· + 1)

section Loose

variable (parse : Bytes → Option LooseObject)

def readCall (json : Bytes) : Option ToolCall :=
  match parse json with
  | none => none
  | some obj =>
    match obj.name with
    | none => none
    | some name =>
      if name = [] then none
      else some ⟨name, (obj.argumentsString <|> obj.argumentsRaw).getD (lit "\x7b\x7d")⟩

/- `text.find('\x7b', i + 1)` goes on behind the brace that was tried. -/
def findLooseToolCall : Bytes → Option ToolCall
  | [] => none
  | c :: rest =>
    if c ≠ openBrace then findLooseToolCall rest
    else
      match closing 0 false false (c :: rest) with
      | none => none
      | some n =>
        match readCall parse ((c :: rest).take (n + 1)) with
        | some call => some call
        | none => findLooseToolCall rest

def Accepted (text : Bytes) (i : ℕ) (call : ToolCall) : Prop :=
  text[i]? = some openBrace ∧ ∃ n, closing 0 false false (text.drop i) = some n ∧
    readCall parse ((text.drop i).take (n + 1)) = some call

variable {parse}

def Leftmost (parse : Bytes → Option LooseObject) (text : Bytes) (call : ToolCall) : Prop :=
  ∃ i, Accepted parse text i call ∧ ∀ j < i, ∀ call', ¬Accepted parse text j call'

variable {c : UInt8} {rest : Bytes}

theorem leftmost_cons {call : ToolCall} (h : ∀ call', ¬Accepted parse (c :: rest) 0 call') :
    Leftmost parse (c :: rest) call ↔ Leftmost parse rest call := by
  constructor
  · rintro ⟨i, hi, hmin⟩
    cases i with
    | zero => exact absurd hi (h call)
    | succ i => exact ⟨i, hi, fun j hj => hmin (j + 1) (Nat.succ_lt_succ hj)⟩
  · rintro ⟨i, hi, hmin⟩
    refine ⟨i + 1, hi, fun j hj call' => ?_⟩
    cases j with
    | zero => exact h call'
    | succ j => exact hmin j (Nat.lt_of_succ_lt_succ hj) call'

/- No brace in front of the leftmost call is left open. -/
def Unhidden (parse : Bytes → Option LooseObject) (text : Bytes) : Prop :=
  ∀ j call, Accepted parse text j call → (∀ i < j, ∀ call', ¬Accepted parse text i call') →
    ∀ i < j, text[i]? = some openBrace → closing 0 false false (text.drop i) ≠ none

theorem unhidden_cons (h : ∀ call', ¬Accepted parse (c :: rest) 0 call')
    (hclosed : c = openBrace → closing 0 false false (c :: rest) ≠ none) :
    Unhidden parse (c :: rest) ↔ Unhidden parse rest := by
  constructor
  · intro hall j call hj hmin i hi
    refine hall (j + 1) call hj (fun k hk call' => ?_) (i + 1) (Nat.succ_lt_succ hi)
    cases k with
    | zero => exact h call'
    | succ k => exact hmin k (Nat.lt_of_succ_lt_succ hk) call'
  · intro hall j call hj hmin i hi hbrace
    cases j with
    | zero => cases hi
    | succ j =>
      cases i with
      | zero => exact hclosed (Option.some.inj hbrace)
      | succ i =>
        exact hall j call hj (fun k hk => hmin (k + 1) (Nat.succ_lt_succ hk)) i (Nat.lt_of_succ_lt_succ hi) hbrace

/-- The search finds the leftmost call, and only if there is one, exactly in the texts in which every brace before that
call is closed. -/
theorem findLooseToolCall_leftmost (parse : Bytes → Option LooseObject) (text : Bytes) :
    (∀ call, findLooseToolCall parse text = some call ↔ Leftmost parse text call) ↔ Unhidden parse text := by
  induction text with
  | nil => simp [findLooseToolCall, Leftmost, Accepted, Unhidden]
  | cons c rest ih =>
    unfold findLooseToolCall
    by_cases hc : c = openBrace
    · subst hc
      rw [if_neg (not_not.2 rfl)]
      cases hclose : closing 0 false false (openBrace :: rest) with
      | none =>
        have hhead : ∀ call', ¬Accepted parse (openBrace :: rest) 0 call' := by
          rintro call' ⟨-, n, hn, -⟩
          cases hclose.symm.trans hn
        constructor
        · intro h j call hj hmin
          cases (h call).2 ⟨j, hj, hmin⟩
        · refine fun h call => ⟨nofun, fun ⟨j, hj, hmin⟩ => ?_⟩
          cases j with
          | zero => exact absurd hj (hhead call)
          | succ j => exact absurd hclose (h (j + 1) call hj hmin 0 (Nat.succ_pos j) rfl)
      | some n =>
        cases hread : readCall parse ((openBrace :: rest).take (n + 1)) with
        | none =>
          simp only [hread]
          have hhead : ∀ call', ¬Accepted parse (openBrace :: rest) 0 call' := by
            rintro call' ⟨-, m, hm, hcall⟩
            cases hclose.symm.trans hm
            cases hread.symm.trans hcall
          have hopen := unhidden_cons hhead fun _ hnone => nomatch hclose.symm.trans hnone
          simp only [leftmost_cons hhead, hopen, ih]
        | some found =>
          simp only [hread]
          have hhead : Accepted parse (openBrace :: rest) 0 found := ⟨rfl, n, hclose, hread⟩
          refine iff_of_true (fun call => ⟨?_, ?_⟩) fun j call _ hmin i hi => ?_
          · rintro ⟨⟩
            exact ⟨0, hhead, nofun⟩
          · rintro ⟨i, hi, hmin⟩
            cases i with
            | succ i => exact absurd hhead (hmin 0 (Nat.succ_pos i) found)
            | zero =>
              obtain ⟨-, m, hm, hcall⟩ := hi
              cases hclose.symm.trans hm
              exact hread.symm.trans hcall
          · exact absurd hhead (hmin 0 (Nat.zero_lt_of_lt hi) found)
    · have hhead : ∀ call', ¬Accepted parse (c :: rest) 0 call' := fun call' hacc => hc (Option.some.inj hacc.1)
      simp only [if_pos hc, leftmost_cons hhead, unhidden_cons hhead fun h => absurd h hc, ih]

def parsePing : Bytes → Option LooseObject := fun json =>
  if json = lit "\x7b\"name\":\"ping\"\x7d" then some { name := some (lit "ping") } else none

/- The outer brace is never closed, and hides the call. -/
theorem findLooseToolCall_hidden :
    findLooseToolCall parsePing (lit "\x7b \x7b\"name\":\"ping\"\x7d") = none ∧
      Accepted parsePing (lit "\x7b \x7b\"name\":\"ping\"\x7d") 2 ⟨lit "ping", lit "\x7b\x7d"⟩ :=
  ⟨by decide +kernel, by decide +kernel, 14, by decide +kernel, by decide +kernel⟩

end Loose

end AgentCpp.Engines.LlamaText
