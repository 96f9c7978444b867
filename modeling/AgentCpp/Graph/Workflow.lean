import AgentCpp.Graph.Builders
import AgentCpp.Graph.Executor

/-!
# What a workflow expression means

The structural semantics knows neither `exit_to` nor loop counters. In `Runs e w out visits`, `none`
is a run that stops because a callback failed, asked for an interrupt, or the branches collided.
-/

namespace AgentCpp
open Lib

/- The state a chain works on, as its callbacks see it, with the keys it wrote. -/
structure Work where
  values : Table Bytes
  histories : Table FlowMemory
  writes : Set Bytes

def Work.state (w : Work) : GraphState := { values := w.values, histories := w.histories }

def Work.after (w : Work) (s : GraphState) : Work :=
  ⟨s.values, s.histories, w.writes ∪ {key | key ∈ s.written}⟩

def Work.copy (w : Work) : Work := ⟨w.values, ∅, ∅⟩

def Work.Collide (results : List Work) : Prop :=
  ∃ (i j : ℕ) (a b : Work), i ≠ j ∧ results[i]? = some a ∧ results[j]? = some b ∧
    ((∃ key, key ∈ a.writes ∧ key ∈ b.writes) ∨
      ∃ name : Bytes, name ∈ a.histories ∧ name ∈ b.histories)

structure Work.Joins (w : Work) (results : List Work) (w' : Work) : Prop where
  kept : ∀ key : Bytes, (∀ r ∈ results, key ∉ r.writes) → w'.values[key]? = w.values[key]?
  taken : ∀ r ∈ results, ∀ key ∈ r.writes, w'.values[key]? = r.values[key]?.or w.values[key]?
  histories_kept : ∀ name : Bytes, (∀ r ∈ results, r.histories[name]? = none) →
    w'.histories[name]? = w.histories[name]?
  histories_taken : ∀ r ∈ results, ∀ (name : Bytes) memory, r.histories[name]? = some memory →
    w'.histories[name]? = some memory
  writes : ∀ key, key ∈ w'.writes ↔ key ∈ w.writes ∨ ∃ r ∈ results, key ∈ r.writes ∧ key ∈ r.values

def loopTest (maxIterations : ℤ) (until_ : Option (Pos → GraphState → Result Bool)) (count : ℤ)
    (pos : Pos) (state : GraphState) : Result Bool :=
  if maxIterations ≤ count then .ok true
  else if 0 < count then
    match until_ with
    | none => .ok false
    | some stop => stop pos state
  else .ok false

mutual

inductive Runs : Workflow → Work → Option Work → List Visit → Prop where
  | leaf {name f w} (pos : Pos) (hok : (f pos w.state).2 = .ok ())
      (hgo : (f pos w.state).1.interruptRequested = false) :
      Runs (.leaf name f) w (some (w.after (f pos w.state).1)) [.mk name []]
  | leafStops {name f w} (pos : Pos)
      (h : ¬((f pos w.state).2 = .ok () ∧ (f pos w.state).1.interruptRequested = false)) :
      Runs (.leaf name f) w none [.mk name []]
  | sequential {name steps w out visits} (h : RunsAll steps w out visits) :
      Runs (.sequential name steps) w out visits
  | parallel {name branches w w' results visits}
      (h : RunsEach branches w.copy (results.map some) visits)
      (happart : ¬Work.Collide results) (hjoin : w.Joins results w') :
      Runs (.parallel name branches) w (some w') [.mk name visits]
  | parallelStops {name branches w outs visits} (h : RunsEach branches w.copy outs visits)
      (hstop : ∀ results, outs = results.map some → Work.Collide results) :
      Runs (.parallel name branches) w none [.mk name visits]
  | loop {name body maxIterations until_ w out visits}
      (h : Iterates name body maxIterations until_ 0 w out visits) :
      Runs (.loop name body maxIterations until_) w out visits

inductive RunsAll : List Workflow → Work → Option Work → List Visit → Prop where
  | nil {w} : RunsAll [] w (some w) []
  | cons {e es w w' out visits visits'} (h : Runs e w (some w') visits)
      (hrest : RunsAll es w' out visits') : RunsAll (e :: es) w out (visits ++ visits')
  | stop {e es w visits} (h : Runs e w none visits) : RunsAll (e :: es) w none visits

inductive RunsEach : List Workflow → Work → List (Option Work) → List (List Visit) → Prop where
  | nil {w} : RunsEach [] w [] []
  | cons {e es w out outs visits visitss} (h : Runs e w out visits)
      (hrest : RunsEach es w outs visitss) : RunsEach (e :: es) w (out :: outs) (visits :: visitss)

inductive Iterates : Bytes → Workflow → ℤ → Option (Pos → GraphState → Result Bool) → ℕ → Work →
    Option Work → List Visit → Prop where
  | exits {name body maxIterations until_ w} {count : ℕ} (pos : Pos)
      (h : loopTest maxIterations until_ count pos w.state = .ok true) :
      Iterates name body maxIterations until_ count w (some w) [.mk name []]
  | testFails {name body maxIterations until_ w} {count : ℕ} {e : Error} (pos : Pos)
      (h : loopTest maxIterations until_ count pos w.state = .error e) :
      Iterates name body maxIterations until_ count w none [.mk name []]
  | again {name body maxIterations until_ w w' out visits visits'} {count : ℕ} (pos : Pos)
      (h : loopTest maxIterations until_ count pos w.state = .ok false)
      (hbody : Runs body w (some w') visits)
      (hrest : Iterates name body maxIterations until_ (count + 1) w' out visits') :
      Iterates name body maxIterations until_ count w out (.mk name [] :: (visits ++ visits'))
  | bodyStops {name body maxIterations until_ w visits} {count : ℕ} (pos : Pos)
      (h : loopTest maxIterations until_ count pos w.state = .ok false)
      (hbody : Runs body w none visits) :
      Iterates name body maxIterations until_ count w none (.mk name [] :: visits)

end

end AgentCpp
