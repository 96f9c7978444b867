import AgentCpp.Lib.Machine
import Mathlib.Logic.Function.Basic

/-!
# The batching engine (`llama_engine.cpp`)

Every generation holds one sequence of the model's context. Generations that want their next token
join a round: the first one to come leads it and decodes the last tokens of all of them in one
call. Each section under `mu_` is one action.

`llama_decode` computes the logits of a row from the cells of the row's own sequence.
-/

namespace AgentCpp.Llama
open Lib Function

/- `τ` tokens, `S` states of a sampler, `L` logits of one row, `V` log-probabilities. -/
structure Model (τ S L V : Type) where
  logits : List (ℕ × τ) → L
  sample : S → L → τ × S
  tokenLogprob : L → τ → V
  add : V → V → V
  nBatch : ℕ

variable {τ S L V : Type}

/- One token of a `llama_batch`; `wanted` asks for its logits. -/
structure Row (τ : Type) where
  token : τ
  pos : ℕ
  seq : ℕ
  wanted : Bool

/- The cells of each sequence, and the rows of the last decode. -/
structure Context (τ L : Type) where
  memory : ℕ → List (ℕ × τ)
  rows : List (Option L)

def decodeRows (m : Model τ S L V) : (ℕ → List (ℕ × τ)) → List (Row τ) → (ℕ → List (ℕ × τ)) × List (Option L)
  | memory, [] => (memory, [])
  | memory, row :: batch =>
    let cells := memory row.seq ++ [(row.pos, row.token)]
    let rest := decodeRows m (update memory row.seq cells) batch
    (rest.1, (if row.wanted then some (m.logits cells) else none) :: rest.2)

/- `llama_decode`. -/
def Context.decode (m : Model τ S L V) (c : Context τ L) (batch : List (Row τ)) : Context τ L :=
  ⟨(decodeRows m c.memory batch).1, (decodeRows m c.memory batch).2⟩

/- `llama_memory_seq_rm(.., seq, base, -1)`. -/
def Context.seqRm (c : Context τ L) (seq base : ℕ) : Context τ L :=
  { c with memory := update c.memory seq ((c.memory seq).filter fun cell => cell.1 < base) }

/- `llama_get_logits_ith(ctx, i)`. -/
def Context.logitsIth (c : Context τ L) (i : ℕ) : Option L := c.rows[i]?.join

/- `llama_get_logits_ith(ctx, -1)`: the last row that was asked for. -/
def Context.lastLogits (c : Context τ L) : Option L := (c.rows.filterMap id).getLast?

def rowsFrom (seq pos : ℕ) (tokens : List τ) (wanted : ℕ → Bool) : List (Row τ) :=
  tokens.zipIdx.map fun x => ⟨x.1, pos + x.2, seq, wanted x.2⟩

/- The loop of `decode_prompt_locked`, `begun` tokens being decoded already, with logits for the
last token only. -/
def decodeChunks (m : Model τ S L V) (seq size : ℕ) : ℕ → ℕ → ℕ → List τ → Context τ L → Context τ L
  | 0, _, _, _, c => c
  | n + 1, pos, begun, rest, c =>
    if rest.isEmpty then c
    else
      let chunk := rest.take (max 1 m.nBatch)
      decodeChunks m seq size n (pos + chunk.length) (begun + chunk.length) (rest.drop (max 1 m.nBatch))
        (c.decode m (rowsFrom seq pos chunk fun i => begun + i + 1 == size))

def decodePrompt (m : Model τ S L V) (c : Context τ L) (seq pos : ℕ) (tokens : List τ) : Context τ L :=
  decodeChunks m seq tokens.length tokens.length pos 0 tokens c

/- The calls of a thread on the sequence it holds. An option has a first token and the others. -/
inductive Op (τ : Type) where
  | prefill (tokens : List τ)
  | nextToken (last : τ)
  | scoreOptions (tokens : List τ) (options : List (τ × List τ))

inductive Output (τ V : Type) where
  | token (token : τ)
  | logprobs (logprobs : List V)
  | failed
  deriving DecidableEq

inductive Place where
  | outside
  | leading
  | following
  deriving DecidableEq

/- A thread that holds a sequence: where it is in `next_token`, its sampler, and what it has called
and got. -/
structure Thread (τ S V : Type) where
  seq : ℕ
  place : Place
  sampler : S
  start : S
  calls : List (Op τ)
  outputs : List (Output τ V)

/- The sampler of a request is that of the thread with this number. -/
structure RoundReq (τ : Type) where
  seq : ℕ
  token : τ
  sampler : ℕ

structure Batcher (τ S L V : Type) where
  ctx : Context τ L
  /- the back of the vector comes first -/
  freeSeqIds : List ℕ
  nextPos : ℕ → Option ℕ
  pending : List (RoundReq τ)
  results : ℕ → Option τ
  batching : Bool
  threads : ℕ → Option (Thread τ S V)

inductive Act (τ S : Type) where
  | acquireSeq (thread : ℕ) (sampler : S)
  | releaseSeq (thread : ℕ)
  | prefill (thread : ℕ) (tokens : List τ)
  | enter (thread : ℕ) (last : τ)
  | round (thread : ℕ)
  | wake (thread : ℕ)
  | scoreOptions (thread : ℕ) (tokens : List τ) (options : List (τ × List τ))

namespace Batcher

/- `seed_free_list`. -/
def init (nSeqMax : ℕ) : Batcher τ S L V where
  ctx := ⟨fun _ => [], []⟩
  freeSeqIds := List.range nSeqMax
  nextPos := fun _ => none
  pending := []
  results := fun _ => none
  batching := false
  threads := fun _ => none

/- `next_pos_[seq]`. -/
def posOf (b : Batcher τ S L V) (seq : ℕ) : ℕ := (b.nextPos seq).getD 0

def setThread (b : Batcher τ S L V) (t : ℕ) (th : Thread τ S V) : Batcher τ S L V :=
  { b with threads := update b.threads t (some th) }

/- `llama_sampler_sample(sampler, ctx, i)` on given logits, by the sampler of thread `t`. -/
def sampleWith (m : Model τ S L V) (b : Batcher τ S L V) (t : ℕ) (logits : L) : Option (τ × Batcher τ S L V) :=
  (b.threads t).map fun th =>
    let r := m.sample th.sampler logits
    (r.1, b.setThread t { th with sampler := r.2 })

def acquireSeq (b : Batcher τ S L V) (t : ℕ) (sampler : S) : Option (Batcher τ S L V) :=
  match b.freeSeqIds with
  | [] => none
  | seq :: rest => some { b with
      ctx := b.ctx.seqRm seq 0
      freeSeqIds := rest
      nextPos := update b.nextPos seq (some 0)
      threads := update b.threads t (some ⟨seq, .outside, sampler, sampler, [], []⟩) }

def releaseSeq (b : Batcher τ S L V) (t : ℕ) (th : Thread τ S V) : Batcher τ S L V :=
  { b with
    nextPos := update b.nextPos th.seq none
    freeSeqIds := th.seq :: b.freeSeqIds
    threads := update b.threads t none }

def returns (b : Batcher τ S L V) (t : ℕ) (op : Op τ) (output : Output τ V) : Option (Batcher τ S L V) :=
  (b.threads t).map fun th => b.setThread t { th with calls := th.calls ++ [op], outputs := th.outputs ++ [output] }

def prompted (m : Model τ S L V) (b : Batcher τ S L V) (seq : ℕ) (tokens : List τ) : Batcher τ S L V :=
  { b with
    ctx := decodePrompt m b.ctx seq (b.posOf seq) tokens
    nextPos := update b.nextPos seq (some (b.posOf seq + tokens.length)) }

def prefill (m : Model τ S L V) (b : Batcher τ S L V) (t : ℕ) (th : Thread τ S V) (tokens : List τ) :
    Option (Batcher τ S L V) :=
  if tokens.isEmpty then b.returns t (.prefill tokens) .failed
  else do
    let b := b.prompted m th.seq tokens
    let logits ← b.ctx.lastLogits
    let (token, b) ← b.sampleWith m t logits
    b.returns t (.prefill tokens) (.token token)

/- The first section of `next_token`. -/
def enter (b : Batcher τ S L V) (t : ℕ) (th : Thread τ S V) (last : τ) : Batcher τ S L V :=
  { b with
    pending := b.pending ++ [⟨th.seq, last, t⟩]
    batching := true
    threads := update b.threads t (some { th with
      place := if b.batching then .following else .leading
      calls := th.calls ++ [.nextToken last] }) }

def take (b : Batcher τ S L V) (t : ℕ) (th : Thread τ S V) : Option (Batcher τ S L V) :=
  (b.results th.seq).map fun token =>
    { b with
      results := update b.results th.seq none
      threads := update b.threads t (some { th with
        place := .outside
        outputs := th.outputs ++ [.token token] }) }

/- The turn of one request in the loop after the decode. -/
def answer (m : Model τ S L V) (b : Batcher τ S L V) (req : RoundReq τ) (logits : L) : Option (Batcher τ S L V) := do
  let (token, b) ← b.sampleWith m req.sampler logits
  some { b with
    nextPos := update b.nextPos req.seq (some (b.posOf req.seq + 1))
    results := update b.results req.seq (some token) }

def answerAll (m : Model τ S L V) (b : Batcher τ S L V) : List (RoundReq τ × ℕ) → Option (Batcher τ S L V)
  | [] => some b
  | (req, i) :: reqs => do
    let logits ← b.ctx.logitsIth i
    let b ← b.answer m req logits
    b.answerAll m reqs

/- The leader's second section. -/
def round (m : Model τ S L V) (b : Batcher τ S L V) (t : ℕ) : Option (Batcher τ S L V) := do
  let reqs := b.pending
  let batch := reqs.map fun req => (⟨req.token, b.posOf req.seq, req.seq, true⟩ : Row τ)
  let b := { b with pending := [], ctx := b.ctx.decode m batch }
  let b ← b.answerAll m reqs.zipIdx
  let b := { b with batching := false }
  let th ← b.threads t
  b.take t th

/- One option of `score_options` after its first token: decoded after the prompt, read and removed again. -/
def scoreRest (m : Model τ S L V) (c : Context τ L) (seq base : ℕ) (option : τ × List τ) (logprob : V) :
    Option (Context τ L × V) :=
  if option.2.isEmpty then some (c, logprob)
  else do
    let c := c.decode m (rowsFrom seq base (option.1 :: option.2).dropLast fun _ => true)
    let logprob ← option.2.zipIdx.foldlM
      (fun v x => (c.logitsIth x.2).map fun logits => m.add v (m.tokenLogprob logits x.1)) logprob
    some (c.seqRm seq base, logprob)

def scoreAll (m : Model τ S L V) (seq base : ℕ) (last : L) : Context τ L → List (τ × List τ) → Option (Context τ L × List V)
  | c, [] => some (c, [])
  | c, option :: options => do
    let (c, logprob) ← scoreRest m c seq base option (m.tokenLogprob last option.1)
    let (c, logprobs) ← scoreAll m seq base last c options
    some (c, logprob :: logprobs)

def scoreOptions (m : Model τ S L V) (b : Batcher τ S L V) (t : ℕ) (th : Thread τ S V) (tokens : List τ)
    (options : List (τ × List τ)) : Option (Batcher τ S L V) :=
  if tokens.isEmpty then b.returns t (.scoreOptions tokens options) .failed
  else do
    let b := b.prompted m th.seq tokens
    let last ← b.ctx.lastLogits
    let (ctx, logprobs) ← scoreAll m th.seq (b.posOf th.seq) last b.ctx options
    returns { b with ctx := ctx } t (.scoreOptions tokens options) (.logprobs logprobs)

def threadAt (b : Batcher τ S L V) (t : ℕ) (place : Place) : Option (Thread τ S V) :=
  (b.threads t).filter fun th => th.place = place

def step (m : Model τ S L V) (b : Batcher τ S L V) : Act τ S → Option (Batcher τ S L V)
  | .acquireSeq t sampler => if (b.threads t).isNone then b.acquireSeq t sampler else none
  | .releaseSeq t => (b.threadAt t .outside).map fun th => b.releaseSeq t th
  | .prefill t tokens => (b.threadAt t .outside).bind fun th => b.prefill m t th tokens
  | .enter t last => (b.threadAt t .outside).map fun th => b.enter t th last
  | .round t => (b.threadAt t .leading).bind fun _ => b.round m t
  | .wake t => (b.threadAt t .following).bind fun th => b.take t th
  | .scoreOptions t tokens options => (b.threadAt t .outside).bind fun th => b.scoreOptions m t th tokens options

end Batcher

def cells (tokens : List τ) : List (ℕ × τ) := tokens.zipIdx.map fun x => (x.2, x.1)

structure Alone (τ S V : Type) where
  tokens : List τ
  sampler : S
  outputs : List (Output τ V)

/- Every token of an option is scored after the prompt and the tokens before it. -/
def scoreAlone (m : Model τ S L V) (tokens : List τ) (option : τ × List τ) : V :=
  option.2.zipIdx.foldl
    (fun v x => m.add v (m.tokenLogprob (m.logits (cells (tokens ++ (option.1 :: option.2).take (x.2 + 1)))) x.1))
    (m.tokenLogprob (m.logits (cells tokens)) option.1)

/- The tokens are appended, and the next one is sampled after them. -/
def Alone.sample (m : Model τ S L V) (u : Alone τ S V) (tokens : List τ) : Alone τ S V :=
  let r := m.sample u.sampler (m.logits (cells (u.tokens ++ tokens)))
  ⟨u.tokens ++ tokens, r.2, u.outputs ++ [.token r.1]⟩

def Alone.call (m : Model τ S L V) (u : Alone τ S V) : Op τ → Alone τ S V
  | .prefill tokens => if tokens.isEmpty then { u with outputs := u.outputs ++ [.failed] } else u.sample m tokens
  | .nextToken last => u.sample m [last]
  | .scoreOptions tokens options =>
    if tokens.isEmpty then { u with outputs := u.outputs ++ [.failed] }
    else { u with
      tokens := u.tokens ++ tokens
      outputs := u.outputs ++ [.logprobs (options.map (scoreAlone m (u.tokens ++ tokens)))] }

def alone (m : Model τ S L V) (sampler : S) (calls : List (Op τ)) : Alone τ S V :=
  calls.foldl (Alone.call m) ⟨[], sampler, []⟩

end AgentCpp.Llama
