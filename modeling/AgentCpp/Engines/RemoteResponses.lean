import AgentCpp.Engines.HostSegments
import AgentCpp.Engines.RemoteCancel

/-!
# Response mappings of the core

A call's `response_shm` points to a mapping that all calls share. The mapping is dropped by
name when the host retires the segment, and together with all others when a host is reaped.
-/

namespace AgentCpp
open Lib RemoteEngine List Option

namespace RemoteSlot

/- The segments the call's response is in or will be read from. -/
def uses (s : RemoteSlot) : List SegmentName :=
  s.frames.filterMap HostFrame.segment ++ (s.responseShm.map Mapping.name).toList

def retires (s : RemoteSlot) : List SegmentName := s.frames.filterMap HostFrame.retire

end RemoteSlot

def CallPhase.isEncoding : CallPhase → Bool
  | .encoding => true
  | _ => false

def RemoteSlot.token (g i : ℕ) (s : RemoteSlot) : ℕ :=
  if s.id = i ∧ s.generation = g then
    (if s.phase.isEncoding ∧ s.kind = .run then 1 else 0) + s.uses.length
  else 0

/- Ids that are not given out yet have their token with the core. -/
def coreView (e : RemoteEngine) : CoreView where
  tokens i := (if e.nextId ≤ i then 1 else 0) + (e.slots.map (RemoteSlot.token e.generation i)).sum
  uses i n := ∃ s ∈ e.slots, s.generation = e.generation ∧ s.id = i ∧ n ∈ s.uses
  retires r := ∃ s ∈ e.slots, s.generation = e.generation ∧ r ∈ s.retires

structure SlotSafe (e : RemoteEngine) (s : RemoteSlot) : Prop where
  generation : s.generation ≤ e.generation
  down : e.child = none → s.generation < e.generation
  own : ∀ n ∈ s.uses ++ s.retires, n.host = s.generation

structure Safe (e : RemoteEngine) : Prop where
  slots : ∀ s ∈ e.slots, SlotSafe e s
  apart : ∀ a ∈ e.slots, ∀ b ∈ e.slots, ∀ r ∈ a.retires, r ∉ b.uses
  host : ∀ h, e.child = some h → h.pid = e.generation ∧ Tracked (coreView e) h

theorem held_coreView (e : RemoteEngine) (i : ℕ) (n : SegmentName) (h : (coreView e).uses i n) :
    1 ≤ (coreView e).tokens i := by
  obtain ⟨s, hs, hg, hid, hn⟩ := h
  have hone : 1 ≤ (e.slots.map (RemoteSlot.token e.generation i)).sum := by
    refine one_le_sum hs ?_
    unfold RemoteSlot.token
    rw [if_pos ⟨hid, hg⟩]
    have := length_pos_of_mem hn
    omega
  exact hone.trans (Nat.le_add_left _ _)

section Host

variable {v v' : CoreView} {h : EngineHost}

theorem Tracked.view (ht : Tracked v h) (htokens : ∀ i, v'.tokens i ≤ v.tokens i)
    (hheld : ∀ i n, v'.uses i n → 1 ≤ v'.tokens i) (huses : ∀ i n, v'.uses i n → v.uses i n)
    (hretires : ∀ r, v'.retires r → v.retires r) : Tracked v' h := by
  refine ht.same_names rfl rfl rfl (fun i => ?_) hheld ht.queued (fun i n hu => ht.busy i n ?_) fun r hr => ?_
  · have hle := htokens i
    omega
  · exact Or.imp_right (Or.imp_right (huses i n)) hu
  · exact Or.imp_right (Or.imp_right (hretires r)) hr

theorem Tracked.receive (ht : Tracked v h) {f : CoreFrame}
    (hone : ∀ i, v.tokens i + (h.pending i + f.token i) + h.working i ≤ 1) :
    Tracked v { h with input := h.input ++ [f] } := by
  refine { ht with one := fun i => ?_, gone := fun r hr => { ht.gone r hr with } }
  have hpending : EngineHost.pending { h with input := h.input ++ [f] } i = h.pending i + f.token i := by
    unfold EngineHost.pending
    rw [map_append, sum_append, map_singleton, sum_singleton]
  rw [hpending]
  exact hone i

variable {rest : List HostFrame}

theorem working_output {f : HostFrame} (ho : h.output = f :: rest) (i : ℕ) :
    h.working i = EngineHost.working { h with output := rest } i + f.token i := by
  unfold EngineHost.working
  rw [ho, map_cons, sum_cons]
  dsimp only
  omega

theorem Tracked.hand (ht : Tracked v h) {f : HostFrame} (ho : h.output = f :: rest)
    (htokens : ∀ i, v'.tokens i ≤ v.tokens i + f.token i) (hheld : ∀ i n, v'.uses i n → 1 ≤ v'.tokens i)
    (huses : ∀ i n, v'.uses i n → v.uses i n ∨ (f.id = i ∧ f.segment = some n))
    (hretires : ∀ r, v'.retires r → v.retires r ∨ f.retire = some r) : Tracked v' { h with output := rest } := by
  refine ht.same_names rfl rfl rfl (fun i => ?_) hheld ht.queued (fun i n hu => ht.busy i n ?_) fun r hr => ?_
  · have hle := htokens i
    have hworking := working_output ho i
    change v'.tokens i + h.pending i + _ ≤ _
    omega
  · unfold InUse
    rw [ho]
    exact Told.of_handed hu (huses i n)
  · unfold Retiring
    rw [ho]
    exact Told.of_handed hr (hretires r)

theorem Tracked.pop (ht : Tracked v h) {f : HostFrame} (ho : h.output = f :: rest) : Tracked v { h with output := rest } :=
  ht.hand ho (fun _ => Nat.le_add_right _ _) ht.held (fun _ _ hu => .inl hu) (fun _ hr => .inl hr)

theorem Tracked.handBack (ht : Tracked v h) {f : HostFrame} (ho : h.output = f :: rest)
    (hn : f.segment.isSome = true) : Tracked v { h with output := rest, input := h.input ++ [⟨.release, f.id⟩] } := by
  refine (ht.pop ho).receive fun i => ?_
  have hone := ht.one i
  have hworking := working_output ho i
  have hsame : CoreFrame.token i ⟨.release, f.id⟩ = f.token i := by
    unfold CoreFrame.token HostFrame.token
    simp [hn]
  change v.tokens i + (h.pending i + _) + _ ≤ 1
  omega

theorem tracked_new (hone : ∀ i, v.tokens i ≤ 1) (hheld : ∀ i n, v.uses i n → 1 ≤ v.tokens i)
    (huses : ∀ i n, ¬v.uses i n) (hretires : ∀ r, ¬v.retires r) (pid : ℕ) : Tracked v { pid := pid } := by
  refine ⟨hone, hheld, nofun, nofun, nodup_nil, fun i n hu => ?_, fun r hr => ?_⟩
  · rcases hu with ⟨_, hjob, -⟩ | ⟨_, hf, -⟩ | huse
    · cases hjob
    · cases hf
    · exact absurd huse (huses i n)
  · rcases hr with ⟨_, hjob, -⟩ | ⟨_, hf, -⟩ | hret
    · cases hjob
    · cases hf
    · exact absurd hret (hretires r)

end Host

structure Shrinks (s s' : RemoteSlot) : Prop where
  id : s'.id = s.id
  generation : s'.generation = s.generation
  uses : ∀ n ∈ s'.uses, n ∈ s.uses
  retires : ∀ r ∈ s'.retires, r ∈ s.retires

theorem Shrinks.refl (s : RemoteSlot) : Shrinks s s := ⟨rfl, rfl, fun _ hn => hn, fun _ hr => hr⟩

variable {e e' : RemoteEngine} {s s' : RemoteSlot}

theorem SlotSafe.congr (h : SlotSafe e s)
    (hgen : e'.generation = e.generation) (hdown : e'.child = none → e.child = none)
    (hsh : Shrinks s s') : SlotSafe e' s' := by
  refine ⟨?_, fun hd => ?_, fun n hn => ?_⟩
  · rw [hgen, hsh.generation]
    exact h.generation
  · rw [hgen, hsh.generation]
    exact h.down (hdown hd)
  · rw [hsh.generation]
    refine h.own n ?_
    rcases mem_append.1 hn with hn | hn
    · exact mem_append_left _ (hsh.uses n hn)
    · exact mem_append_right _ (hsh.retires n hn)

theorem safe_slots (h : Safe e) (hgen : e'.generation = e.generation) (hdown : e'.child = none →
    e.child = none) (hfrom : ∀ s' ∈ e'.slots, ∃ s ∈ e.slots, Shrinks s s') : (∀ s' ∈ e'.slots, SlotSafe e' s') ∧ ∀ a ∈
    e'.slots, ∀ b ∈ e'.slots, ∀ r ∈ a.retires, r ∉ b.uses := by
  refine ⟨fun s' hs' => ?_, fun a ha b hb r hr hn => ?_⟩
  · obtain ⟨s, hs, hsh⟩ := hfrom s' hs'
    exact (h.slots s hs).congr hgen hdown hsh
  · obtain ⟨a', ha', hsha⟩ := hfrom a ha
    obtain ⟨b', hb', hshb⟩ := hfrom b hb
    exact h.apart a' ha' b' hb' r (hsha.retires r hr) (hshb.uses r hn)

theorem tokens_set {k : ℕ} (hold : e.slots[k]? = some s)
    (hgen : e'.generation = e.generation) (hslots : e'.slots = e.slots.set k s') (hnext : e'.nextId = e.nextId)
    (i : ℕ) : (coreView e').tokens i + s.token e.generation i = (coreView e).tokens i + s'.token e.generation i := by
  have hset := sum_map_set (RemoteSlot.token e.generation i) e.slots k s s' hold
  change (if e'.nextId ≤ i then 1 else 0) + (e'.slots.map (RemoteSlot.token e'.generation i)).sum + _ =
    (if e.nextId ≤ i then 1 else 0) + _ + _
  rw [hgen, hslots, hnext]
  omega

structure Replaced (e e' : RemoteEngine) (k : ℕ) (s s' : RemoteSlot) : Prop where
  old : e.slots[k]? = some s
  generation : e'.generation = e.generation
  slots : e'.slots = e.slots.set k s'
  nextId : e'.nextId = e.nextId
  shrinks : Shrinks s s'

namespace Replaced

variable {e e' : RemoteEngine} {k : ℕ} {s s' : RemoteSlot}

theorem uses (hr : Replaced e e' k s s') (i : ℕ) (n : SegmentName) (h : (coreView e').uses i n) :
    (coreView e).uses i n := by
  obtain ⟨x, hx, hg, hxid, hn⟩ := h
  rw [hr.generation] at hg
  rw [hr.slots] at hx
  rcases mem_or_eq_of_mem_set hx with hx | rfl
  · exact ⟨x, hx, hg, hxid, hn⟩
  · exact ⟨s, mem_of_getElem? hr.old, hr.shrinks.generation ▸ hg, hr.shrinks.id ▸ hxid, hr.shrinks.uses n hn⟩

theorem retires (hr : Replaced e e' k s s') (r : SegmentName) (h : (coreView e').retires r) :
    (coreView e).retires r := by
  obtain ⟨x, hx, hg, hxr⟩ := h
  rw [hr.generation] at hg
  rw [hr.slots] at hx
  rcases mem_or_eq_of_mem_set hx with hx | rfl
  · exact ⟨x, hx, hg, hxr⟩
  · exact ⟨s, mem_of_getElem? hr.old, hr.shrinks.generation ▸ hg, hr.shrinks.retires r hxr⟩

theorem safe_slots (hr : Replaced e e' k s s') (h : Safe e) (hdown : e'.child = none → e.child = none) :
    (∀ x ∈ e'.slots, SlotSafe e' x) ∧ ∀ a ∈ e'.slots, ∀ b ∈ e'.slots, ∀ r ∈ a.retires, r ∉ b.uses := by
  refine AgentCpp.safe_slots h hr.generation hdown fun x' hx' => ?_
  rw [hr.slots] at hx'
  rcases mem_or_eq_of_mem_set hx' with hx | rfl
  · exact ⟨x', hx, .refl x'⟩
  · exact ⟨s, mem_of_getElem? hr.old, hr.shrinks⟩

end Replaced

theorem Safe.setSlot (h : Safe e) (hs : e.slots[k]? = some s) (hsh : Shrinks s s')
    (htoken : ∀ i, s'.token e.generation i ≤ s.token e.generation i) : Safe (e.setSlot k s') := by
  have hr : Replaced e (e.setSlot k s') k s s' := ⟨hs, rfl, rfl, rfl, hsh⟩
  have htokens : ∀ i, (coreView (e.setSlot k s')).tokens i ≤ (coreView e).tokens i := by
    intro i
    have hset := tokens_set hr.old hr.generation hr.slots hr.nextId i
    have hle := htoken i
    omega
  obtain ⟨hslots, hapart⟩ := hr.safe_slots h id
  refine ⟨hslots, hapart, fun x hx => ?_⟩
  obtain ⟨hpid, ht⟩ := h.host x hx
  exact ⟨hpid, ht.view htokens (held_coreView _) hr.uses hr.retires⟩

theorem writeFrame_cases (e : RemoteEngine) (f : CoreFrame) (g : ℕ) :
    e.writeFrame f g = e ∨ ∃ h, e.child = some h ∧ g = e.generation ∧ e.writeFrame f g =
      { e with child := some { h with input := h.input ++ [f] }, written := e.written ++ [(g, f)] } := by
  unfold writeFrame
  split
  · exact .inl rfl
  · next h hc =>
    split
    · next hcond => exact .inr ⟨h, hc, hcond.1, rfl⟩
    · exact .inl rfl

theorem Safe.send (h : Safe e) (hs : e.slots[k]? = some s)
    (hsh : Shrinks s s') (f : CoreFrame) (g : ℕ) (htoken : ∀ i, s'.token e.generation i ≤ s.token e.generation i)
    (hsent : g = e.generation → ∀ i, s'.token e.generation i + f.token i ≤ s.token e.generation i) :
    Safe ((e.writeFrame f g).setSlot k s') := by
  rcases writeFrame_cases e f g with heq | ⟨host, hc, hg, heq⟩
  · rw [heq]
    exact h.setSlot hs hsh htoken
  · rw [heq]
    obtain ⟨hpid, ht⟩ := h.host host hc
    generalize he' : ({ e with
      child := some { host with input := host.input ++ [f] }
      written := e.written ++ [(g, f)] } : RemoteEngine).setSlot k s' = e'
    have hchild : e'.child = some { host with input := host.input ++ [f] } := by rw [← he']; rfl
    have hr : Replaced e e' k s s' := by
      rw [← he']
      exact ⟨hs, rfl, rfl, rfl, hsh⟩
    have htokens : ∀ i, (coreView e').tokens i + f.token i ≤ (coreView e).tokens i := by
      intro i
      have hset := tokens_set hr.old hr.generation hr.slots hr.nextId i
      have hle := hsent hg i
      omega
    obtain ⟨hslots, hapart⟩ := hr.safe_slots h (fun hd => by rw [hchild] at hd; cases hd)
    refine ⟨hslots, hapart, fun x hx => ?_⟩
    rw [hchild] at hx
    cases hx
    have hv := ht.view (fun i => Nat.le_of_add_right_le (htokens i)) (held_coreView e') hr.uses hr.retires
    refine ⟨hpid.trans hr.generation.symm, hv.receive fun i => ?_⟩
    have hold := ht.one i
    have hnew := htokens i
    omega

theorem coreView_congr (hgen : e'.generation = e.generation) (hslots : e'.slots = e.slots)
    (hnext : e'.nextId = e.nextId) : coreView e' = coreView e := by
  unfold coreView
  rw [hgen, hslots, hnext]

theorem Safe.congr (h : Safe e) (hgen : e'.generation = e.generation)
    (hslots : e'.slots = e.slots) (hnext : e'.nextId = e.nextId) (hchild : e'.child = e.child) : Safe e' := by
  have hfrom : ∀ s ∈ e'.slots, ∃ x ∈ e.slots, Shrinks x s := fun s hs => ⟨s, hslots ▸ hs, .refl s⟩
  obtain ⟨hsafe, hapart⟩ := safe_slots h hgen (fun hd => hchild ▸ hd) hfrom
  refine ⟨hsafe, hapart, fun x hx => ?_⟩
  rw [coreView_congr hgen hslots hnext, hgen]
  exact h.host x (hchild ▸ hx)

theorem shrinks_of_moved (hm : Moved s s') : Shrinks s s' ∧ s'.uses.length ≤ s.uses.length := by
  obtain ⟨l, hperm, hsub⟩ := hm.frames
  have hnames : ∀ {f : HostFrame → Option SegmentName}, ∀ n ∈ s'.frames.filterMap f, n ∈ s.frames.filterMap f :=
    fun n hn => (hsub.filterMap _).subset ((hperm.filterMap _).mem_iff.2 hn)
  refine ⟨⟨hm.id, hm.generation, fun n hn => ?_, hnames⟩, ?_⟩
  · unfold RemoteSlot.uses at hn ⊢
    rw [hm.shm] at hn
    rcases mem_append.1 hn with hn | hn
    · exact mem_append_left _ (hnames n hn)
    · exact mem_append_right _ hn
  · have hlen := (hperm.filterMap HostFrame.segment).length_eq
    have hle := (hsub.filterMap HostFrame.segment).length_le
    unfold RemoteSlot.uses
    rw [hm.shm, length_append, length_append]
    omega

theorem token_of_moved (hm : Moved s s') (hle : s'.uses.length ≤ s.uses.length) (g i : ℕ) :
    s'.token g i ≤ s.token g i := by
  unfold RemoteSlot.token
  rw [hm.id, hm.generation, hm.kind]
  split
  · refine Nat.add_le_add ?_ hle
    split
    · next hc =>
      have henc : s.phase.isEncoding = true := by
        have : s'.phase = .encoding := by
          cases hp : s'.phase <;> rw [hp] at hc <;> first | rfl | cases hc.1
        rw [hm.encoding this]
        rfl
      rw [if_pos ⟨henc, hc.2⟩]
    · exact Nat.zero_le _
  · exact le_refl _

variable {host : EngineHost} {r : SegmentName} {f : HostFrame} {flags : ℕ → Bool} {kind : SectionKind}

variable {n : SegmentName}

theorem Safe.inUse_host (h : Safe e) (hc : e.child = some host) {i : ℕ}
    (hu : InUse (coreView e) host i n) : n.host = e.generation := by
  obtain ⟨hpid, ht⟩ := h.host host hc
  obtain ⟨seg, hseg, hname, -⟩ := ht.busy i n hu
  rw [← hname, ← hpid]
  exact (ht.names seg hseg).1

theorem Safe.retiring_host (h : Safe e) (hc : e.child = some host)
    (hr : Retiring (coreView e) host r) : r.host = e.generation := by
  obtain ⟨hpid, ht⟩ := h.host host hc
  exact (ht.gone r hr).host.trans hpid

/- A retired name is in use nowhere. Names of older hosts carry another host. -/
theorem Safe.names_apart (h : Safe e) (hc : e.child = some host)
    (hr : Retiring (coreView e) host r ∨ ∃ a ∈ e.slots, r ∈ a.retires)
    (hn : (∃ i, InUse (coreView e) host i n) ∨ ∃ b ∈ e.slots, n ∈ b.uses) : n ≠ r := by
  have hret : Retiring (coreView e) host r ∨
      ∃ a ∈ e.slots, r ∈ a.retires ∧ a.generation ≠ e.generation ∧ r.host = a.generation := by
    rcases hr with hr | ⟨a, ha, hra⟩
    · exact .inl hr
    · by_cases hg : a.generation = e.generation
      · exact .inl (.inr (.inr ⟨a, ha, hg, hra⟩))
      · exact .inr ⟨a, ha, hra, hg, (h.slots a ha).own r (mem_append_right _ hra)⟩
  have huse : (∃ i, InUse (coreView e) host i n) ∨
      ∃ b ∈ e.slots, n ∈ b.uses ∧ b.generation ≠ e.generation ∧ n.host = b.generation := by
    rcases hn with hu | ⟨b, hb, hnb⟩
    · exact .inl hu
    · by_cases hg : b.generation = e.generation
      · exact .inl ⟨b.id, .inr (.inr ⟨b, hb, hg, rfl, hnb⟩)⟩
      · exact .inr ⟨b, hb, hnb, hg, (h.slots b hb).own n (mem_append_left _ hnb)⟩
  rintro rfl
  rcases hret with hret | ⟨a, ha, hra, hga, hrh⟩
  · rcases huse with ⟨i, hu⟩ | ⟨b, -, -, hgb, hnh⟩
    · have ht := (h.host host hc).2
      exact ht.gone_unused (ht.gone n hret) hu rfl
    · exact hgb (hnh.symm.trans (h.retiring_host hc hret))
  · rcases huse with ⟨i, hu⟩ | ⟨b, hb, hnb, -, -⟩
    · exact hga (hrh.symm.trans (h.inUse_host hc hu))
    · exact h.apart a ha b hb n hra hnb

theorem mem_uses_of_shm {m : Mapping} (hm : s.responseShm = some m) : m.name ∈ s.uses := by
  refine mem_append_right _ ?_
  rw [hm]
  exact mem_singleton.2 rfl

theorem Safe.forget (h : Safe e) (retire : Option SegmentName) : Safe (e.forgetRetired retire) := by
  cases retire with
  | none => exact h
  | some r => exact h.congr rfl rfl rfl rfl

theorem Safe.setChild (h : Safe e) (ht : Tracked (coreView e) host)
    (hpid : host.pid = e.generation) : Safe { e with child := some host } := by
  refine ⟨fun s hs => ?_, h.apart, fun x hx => ?_⟩
  · have hslot := h.slots s hs
    exact ⟨hslot.generation, nofun, hslot.own⟩
  · cases hx
    exact ⟨hpid, ht⟩

theorem frames_deliver (f : HostFrame) (s : RemoteSlot) : (deliver f s).frames.Perm (f :: s.frames) := by
  change (s.inbox ++ [f] ++ s.phase.frames).Perm (f :: (s.inbox ++ s.phase.frames))
  rw [append_assoc]
  exact perm_middle

theorem names_deliver (g : HostFrame → Option SegmentName) (f : HostFrame) (s : RemoteSlot) :
    ((deliver f s).frames.filterMap g).Perm ((g f).toList ++ s.frames.filterMap g) := by
  have hperm := (frames_deliver f s).filterMap g
  rw [filterMap_cons] at hperm
  cases hg : g f <;> rwa [hg] at hperm

theorem uses_deliver (f : HostFrame) (s : RemoteSlot) : (deliver f s).uses.Perm (f.segment.toList ++ s.uses) := by
  have happ := (names_deliver HostFrame.segment f s).append_right (s.responseShm.map Mapping.name).toList
  rw [append_assoc] at happ
  exact happ

theorem token_deliver {g : ℕ} (hid : s.id = f.id) (hg : s.generation = g) (i : ℕ) :
    (deliver f s).token g i = s.token g i + f.token i := by
  have hlen := (uses_deliver f s).length_eq
  rw [length_append] at hlen
  have hseg : f.segment.toList.length = if f.segment.isSome then 1 else 0 := by
    cases f.segment <;> rfl
  unfold RemoteSlot.token HostFrame.token
  change (if s.id = i ∧ s.generation = g then (if s.phase.isEncoding ∧ s.kind = .run then 1 else 0) +
    (deliver f s).uses.length else 0) = _
  rw [← hid]
  by_cases hi : s.id = i
  · simp only [hi, hg, true_and, if_true]
    omega
  · simp only [hi, false_and, if_false]

variable {rest : List HostFrame}

theorem Safe.deliver (h : Safe e) (hc : e.child = some host)
    (ho : host.output = f :: rest) (hs : e.slots[k]? = some s) (hid : s.id = f.id)
    (hg : s.generation = e.generation) :
    Safe ({ e with child := some { host with output := rest } }.setSlot k (deliver f s)) := by
  have hf : f ∈ host.output := ho ▸ mem_cons_self
  have hsm := mem_of_getElem? hs
  obtain ⟨hpid, ht⟩ := h.host host hc
  generalize he' : ({ e with child := some { host with output := rest } } : RemoteEngine).setSlot k
    (RemoteEngine.deliver f s) = e'
  have hslots : e'.slots = e.slots.set k (RemoteEngine.deliver f s) := by rw [← he']; rfl
  have hgen : e'.generation = e.generation := by rw [← he']; rfl
  have hnext : e'.nextId = e.nextId := by rw [← he']; rfl
  have hchild : e'.child = some { host with output := rest } := by rw [← he']; rfl
  -- where the names of a slot come from
  have huses : ∀ b ∈ e'.slots, ∀ n ∈ b.uses, (∃ x ∈ e.slots, x.generation = b.generation ∧ x.id = b.id ∧ n ∈ x.uses) ∨
      (b.generation = e.generation ∧ b.id = f.id ∧ f.segment = some n) := by
    intro b hb n hn
    rw [hslots] at hb
    rcases mem_or_eq_of_mem_set hb with hb | rfl
    · exact .inl ⟨b, hb, rfl, rfl, hn⟩
    · rcases mem_append.1 ((uses_deliver f s).mem_iff.1 hn) with hn | hn
      · exact .inr ⟨hg, hid, mem_toList.1 hn⟩
      · exact .inl ⟨s, hsm, rfl, rfl, hn⟩
  have hretires : ∀ a ∈ e'.slots, ∀ r ∈ a.retires, (∃ x ∈ e.slots, x.generation = a.generation ∧ r ∈ x.retires) ∨
      (a.generation = e.generation ∧ f.retire = some r) := by
    intro a ha r hr
    rw [hslots] at ha
    rcases mem_or_eq_of_mem_set ha with ha | rfl
    · exact .inl ⟨a, ha, rfl, hr⟩
    · rcases mem_append.1 ((names_deliver HostFrame.retire f s).mem_iff.1 hr) with hr | hr
      · exact .inr ⟨hg, mem_toList.1 hr⟩
      · exact .inl ⟨s, hsm, rfl, hr⟩
  have hused : ∀ n, f.segment = some n → InUse (coreView e) host f.id n := fun n hn => .inr (.inl ⟨f, hf, rfl, hn⟩)
  have hretiring : ∀ r, f.retire = some r → Retiring (coreView e) host r := fun r hr => .inr (.inl ⟨f, hf, hr⟩)
  refine ⟨fun b hb => ?_, fun a ha b hb r hr hn => ?_, fun x hx => ?_⟩
  · have hold : ∃ x ∈ e.slots, x.generation = b.generation := by
      rw [hslots] at hb
      rcases mem_or_eq_of_mem_set hb with hb | rfl
      · exact ⟨b, hb, rfl⟩
      · exact ⟨s, hsm, rfl⟩
    obtain ⟨x, hx, hxg⟩ := hold
    refine ⟨?_, fun hd => ?_, fun n hn => ?_⟩
    · rw [hgen, ← hxg]
      exact (h.slots x hx).generation
    · rw [hchild] at hd
      cases hd
    · rcases mem_append.1 hn with hn | hn
      · rcases huses b hb n hn with ⟨y, hy, hyg, -, hyn⟩ | ⟨hbg, -, hfn⟩
        · rw [← hyg]
          exact (h.slots y hy).own n (mem_append_left _ hyn)
        · rw [hbg]
          exact h.inUse_host hc (hused n hfn)
      · rcases hretires b hb n hn with ⟨y, hy, hyg, hyn⟩ | ⟨hbg, hfn⟩
        · rw [← hyg]
          exact (h.slots y hy).own n (mem_append_right _ hyn)
        · rw [hbg]
          exact h.retiring_host hc (hretiring n hfn)
  · refine h.names_apart hc (r := r) (n := r) ?_ ?_ rfl
    · rcases hretires a ha r hr with ⟨y, hy, -, hyr⟩ | ⟨-, hfr⟩
      · exact .inr ⟨y, hy, hyr⟩
      · exact .inl (hretiring r hfr)
    · rcases huses b hb r hn with ⟨y, hy, -, -, hyn⟩ | ⟨-, -, hfn⟩
      · exact .inr ⟨y, hy, hyn⟩
      · exact .inl ⟨f.id, hused r hfn⟩
  · rw [hchild] at hx
    cases hx
    refine ⟨hpid.trans hgen.symm, ht.hand ho (fun i => ?_) (held_coreView _) ?_ ?_⟩
    · have hset := tokens_set hs hgen hslots hnext i
      have htoken := token_deliver hid hg i
      omega
    · rintro i n ⟨b, hb, hbg, hbid, hn⟩
      rw [hgen] at hbg
      rcases huses b hb n hn with ⟨y, hy, hyg, hyid, hyn⟩ | ⟨-, hfid, hfn⟩
      · exact .inl ⟨y, hy, hyg.trans hbg, hyid.trans hbid, hyn⟩
      · exact .inr ⟨hfid.symm.trans hbid, hfn⟩
    · rintro r ⟨a, ha, hag, hr⟩
      rw [hgen] at hag
      rcases hretires a ha r hr with ⟨y, hy, hyg, hyr⟩ | ⟨-, hfr⟩
      · exact .inl ⟨y, hy, hyg.trans hag, hyr⟩
      · exact .inr hfr

theorem Safe.dropFrame (h : Safe e) (hc : e.child = some host)
    (ho : host.output = f :: rest) : Safe ({ e with child := some { host with output := rest } }.dropFrame f) := by
  obtain ⟨hpid, ht⟩ := h.host host hc
  have hpop : Safe { e with child := some { host with output := rest } } :=
    h.setChild (ht.pop ho) hpid
  unfold RemoteEngine.dropFrame
  split
  · next shm hmsg =>
    have hforget := hpop.forget shm.retire
    split
    · next hn =>
      -- the Release takes the token of the frame
      have hseg : f.segment.isSome = true := by
        unfold HostFrame.segment
        rw [hmsg]
        exact isSome_map.trans hn
      have hback := (h.setChild (ht.handBack ho hseg) hpid).forget shm.retire
      unfold sendControl
      rcases writeFrame_cases ({ e with child := some { host with output := rest } }.forgetRetired shm.retire)
        ⟨.release, f.id⟩ ({ e with child := some { host with output := rest } }.forgetRetired shm.retire).generation
        with heq | ⟨x, hx, -, heq⟩
      · rw [heq]
        exact hforget
      · rw [heq]
        cases hr : shm.retire <;>
        · rw [hr] at hx hback
          cases hx
          exact hback.congr rfl rfl rfl rfl
    · exact hforget
  · exact hpop

theorem pid_step {h h' : EngineHost} {act : HostAct} (hstep : h.step act = some h') : h'.pid = h.pid := by
  cases (EngineHost.step_moves hstep).2 with
  | read =>
    unfold EngineHost.take
    split <;> rfl
  | claim hj ha hplaced =>
    obtain ⟨segments, seq, hframe⟩ := placeResponse_frame h _ _ _
    rw [← hplaced, hframe]
  | _ => rfl

theorem Safe.down (h : Safe e) (error : ℕ → Error) : Safe (e.failAll error).reap := by
  have hfrom : ∀ s ∈ (e.failAll error).slots, ∃ x ∈ e.slots, s.generation = x.generation ∧ s.uses = x.uses ∧
      s.retires = x.retires := by
    intro s hs
    obtain ⟨x, hx, heq⟩ := mem_failAll hs
    rw [heq]
    exact ⟨x, hx, rfl, rfl, rfl⟩
  refine ⟨fun s hs => ?_, fun a ha b hb r hr hn => ?_, nofun⟩
  · obtain ⟨x, hx, hg, hu, hr⟩ := hfrom s hs
    have hle := (h.slots x hx).generation
    refine ⟨?_, fun _ => ?_, ?_⟩
    · rw [hg]
      exact Nat.le_succ_of_le hle
    · rw [hg]
      exact Nat.lt_succ_of_le hle
    · rw [hg, hu, hr]
      exact (h.slots x hx).own
  · obtain ⟨x, hx, -, -, hxr⟩ := hfrom a ha
    obtain ⟨y, hy, -, hyu, -⟩ := hfrom b hb
    rw [hxr] at hr
    rw [hyu] at hn
    exact h.apart x hx y hy r hr hn

theorem Safe.spawn (h : Safe e) (hdown : e.child = none) : Safe e.spawn := by
  have hstale : ∀ s ∈ e.slots, s.generation ≠ e.generation := fun s hs => Nat.ne_of_lt ((h.slots s hs).down hdown)
  have htokens : ∀ i, (coreView e).tokens i ≤ 1 := by
    intro i
    have hzero : (e.slots.map (RemoteSlot.token e.generation i)).sum = 0 := by
      refine sum_eq_zero fun n hn => ?_
      obtain ⟨s, hs, rfl⟩ := mem_map.1 hn
      exact if_neg fun hc => hstale s hs hc.2
    change (if e.nextId ≤ i then 1 else 0) + _ ≤ 1
    split <;> omega
  have ht : Tracked (coreView e) { pid := e.generation } := by
    refine tracked_new htokens (held_coreView e) ?_ ?_ _
    · rintro i n ⟨s, hs, hg, -⟩
      exact hstale s hs hg
    · rintro r ⟨s, hs, hg, -⟩
      exact hstale s hs hg
  have hup := h.setChild ht rfl
  exact hup.congr rfl rfl rfl rfl

theorem Safe.returnSegment (h : Safe e) (hs : e.slots[k]? = some s)
    (hsh : Shrinks s s') (hless : s'.uses.length < s.uses.length)
    (hphase : s'.phase.isEncoding = false) : Safe ((e.returnSegment s).setSlot k s') := by
  have hle : ∀ i, s'.token e.generation i ≤ s.token e.generation i := by
    intro i
    unfold RemoteSlot.token
    rw [hsh.id, hsh.generation, hphase]
    split
    · simp only [Bool.false_eq_true, false_and, if_false]
      omega
    · exact le_refl _
  unfold RemoteEngine.returnSegment
  split
  · next hcond =>
    refine h.send hs hsh ⟨.release, s.id⟩ e.generation hle fun _ i => ?_
    unfold RemoteSlot.token CoreFrame.token
    rw [hsh.id, hsh.generation, hphase]
    by_cases hi : s.id = i
    · simp only [hi, hcond.2, and_self, if_true, Bool.false_eq_true, false_and, if_false, or_true]
      omega
    · simp only [hi]
      exact le_refl _
  · exact h.setSlot hs hsh hle

theorem Safe.releaseSlot (h : Safe e) (hs : e.slots[k]? = some s) : Safe (e.releaseSlot k s) := by
  have hsh : Shrinks s { s with phase := .free, hasCancel := false, inbox := [], responseShm := none } :=
    ⟨rfl, rfl, nofun, nofun⟩
  unfold RemoteEngine.releaseSlot
  split
  · next hm =>
    obtain ⟨m, hm⟩ := isSome_iff_exists.1 hm
    have hfree := h.returnSegment hs hsh (length_pos_of_mem (mem_uses_of_shm hm)) rfl
    exact hfree.congr rfl rfl rfl rfl
  · have hfree := h.setSlot hs hsh fun i => by simp [RemoteSlot.token, RemoteSlot.uses, RemoteSlot.frames,
      CallPhase.frames, CallPhase.isEncoding]
    exact hfree.congr rfl rfl rfl rfl

theorem Safe.enter (h : Safe e) (hid : s.id = e.nextId)
    (hg : s.generation = e.generation) (hframes : s.frames = []) (hm : s.responseShm = none)
    (hup : e.child.isSome = true) (hgen : e'.generation = e.generation) (hchild : e'.child = e.child)
    (hnext : e'.nextId = e.nextId + 1) (hmem : ∀ x ∈ e'.slots, x ∈ e.slots ∨ x = s)
    (hsum : ∀ i, (e'.slots.map (RemoteSlot.token e.generation i)).sum ≤
      (e.slots.map (RemoteSlot.token e.generation i)).sum + s.token e.generation i) : Safe e' := by
  have huses : s.uses = [] := by
    unfold RemoteSlot.uses
    rw [hframes, hm]
    rfl
  have hretires : s.retires = [] := by
    unfold RemoteSlot.retires
    rw [hframes]
    rfl
  have holdUses : ∀ x ∈ e'.slots, ∀ n ∈ x.uses, x ∈ e.slots := by
    intro x hx n hn
    rcases hmem x hx with hx | rfl
    · exact hx
    · rw [huses] at hn
      cases hn
  have holdRetires : ∀ x ∈ e'.slots, ∀ r ∈ x.retires, x ∈ e.slots := by
    intro x hx r hr
    rcases hmem x hx with hx | rfl
    · exact hx
    · rw [hretires] at hr
      cases hr
  refine ⟨fun x hx => ?_, fun a ha b hb r hr hn => ?_, fun host hc => ?_⟩
  · refine ⟨?_, fun hd => ?_, fun n hn => ?_⟩
    · rw [hgen]
      rcases hmem x hx with hx | rfl
      · exact (h.slots x hx).generation
      · exact le_of_eq hg
    · rw [hchild] at hd
      rw [hd] at hup
      cases hup
    · rcases mem_append.1 hn with hn' | hn'
      · exact (h.slots x (holdUses x hx n hn')).own n hn
      · exact (h.slots x (holdRetires x hx n hn')).own n hn
  · exact h.apart a (holdRetires a ha r hr) b (holdUses b hb r hn) r hr hn
  · rw [hchild] at hc
    obtain ⟨hpid, ht⟩ := h.host host hc
    refine ⟨hpid.trans hgen.symm, ht.view (fun i => ?_) (held_coreView _) ?_ ?_⟩
    · have hle := hsum i
      have htoken : s.token e.generation i ≤ if e.nextId = i then 1 else 0 := by
        unfold RemoteSlot.token
        rw [huses, hid, length_nil]
        split
        · next hc =>
          rw [if_pos hc.1]
          split <;> omega
        · exact Nat.zero_le _
      change (if e'.nextId ≤ i then 1 else 0) + (e'.slots.map (RemoteSlot.token e'.generation i)).sum ≤
        (if e.nextId ≤ i then 1 else 0) + (e.slots.map (RemoteSlot.token e.generation i)).sum
      rw [hgen]
      split at htoken <;> split <;> split <;> omega
    · rintro i n ⟨x, hx, hxg, hxid, hn⟩
      exact ⟨x, holdUses x hx n hn, hxg.trans hgen, hxid, hn⟩
    · rintro r ⟨x, hx, hxg, hr⟩
      exact ⟨x, holdRetires x hx r hr, hxg.trans hgen, hr⟩

theorem Safe.acquireSlot (h : Safe e) (hid : s.id = e.nextId)
    (hg : s.generation = e.generation) (hframes : s.frames = []) (hm : s.responseShm = none)
    (hup : e.child.isSome = true) : Safe (e.acquireSlot s) := by
  unfold RemoteEngine.acquireSlot
  simp only
  split
  · next k hk =>
    obtain ⟨hlt, -⟩ := findIdx?_eq_some_iff_getElem.1 hk
    have hold : e.slots[k]? = some e.slots[k] := getElem?_eq_getElem hlt
    refine h.enter hid hg hframes hm hup rfl rfl rfl (fun x hx => mem_or_eq_of_mem_set hx) fun i => ?_
    have hset := sum_map_set (RemoteSlot.token e.generation i) e.slots k _ s hold
    change ((e.slots.set k s).map _).sum ≤ _
    omega
  · refine h.enter hid hg hframes hm hup rfl rfl rfl (fun x hx => ?_) fun i => ?_
    · rcases mem_append.1 hx with hx | hx
      · exact .inl hx
      · exact .inr (mem_singleton.1 hx)
    · rw [map_append, sum_append, map_singleton, sum_singleton]

def Unread (e : RemoteEngine) : Prop := ∀ s ∈ e.slots, s.responseShm = none

theorem token_write (s : RemoteSlot) (hp : s.phase = .encoding) (g i : ℕ) (hg : s.generation = g) :
    RemoteSlot.token g i { s with phase := .sent } + CoreFrame.token i ⟨s.kind.msg, s.id⟩ ≤ s.token g i := by
  have hframes : RemoteSlot.uses { s with phase := .sent } = s.uses := by
    unfold RemoteSlot.uses RemoteSlot.frames
    rw [hp]
    rfl
  unfold RemoteSlot.token CoreFrame.token
  rw [hframes]
  rw [hp]
  by_cases hi : s.id = i
  · cases hk : s.kind <;> simp [hi, hg, CallKind.msg, CallPhase.isEncoding]
  · simp [hi]

theorem Safe.write (h : Safe e) (hs : e.slots[k]? = some s) (hp : s.phase = .encoding) :
    Safe ((e.writeFrame ⟨s.kind.msg, s.id⟩ s.generation).setSlot k { s with phase := .sent }) := by
  have hframes : RemoteSlot.frames { s with phase := .sent } = s.frames := by
    unfold RemoteSlot.frames
    rw [hp]
    rfl
  have hsh : Shrinks s { s with phase := .sent } := by
    refine ⟨rfl, rfl, fun n hn => ?_, fun r hr => ?_⟩
    · unfold RemoteSlot.uses at hn ⊢
      rw [hframes] at hn
      exact hn
    · unfold RemoteSlot.retires at hr ⊢
      rw [hframes] at hr
      exact hr
  refine h.send hs hsh _ _ (fun i => ?_) fun hg i => token_write s hp _ i hg
  by_cases hg : s.generation = e.generation
  · exact Nat.le_of_add_right_le (token_write s hp _ i hg)
  · unfold RemoteSlot.token
    rw [if_neg fun hc => hg hc.2]
    exact Nat.zero_le _

variable {final : HostFrame} {shm : ShmHeader}

theorem uses_answered (hp : s.phase = .answered final)
    (hf : final.msg = .response shm) : s.uses = s.inbox.filterMap HostFrame.segment ++
      (shm.segment.map Prod.fst).toList ++ (s.responseShm.map Mapping.name).toList := by
  unfold RemoteSlot.uses RemoteSlot.frames
  have hseg : final.segment = shm.segment.map Prod.fst := by
    unfold HostFrame.segment
    rw [hf]
  rw [hp, filterMap_append]
  change _ ++ [final].filterMap _ ++ _ = _
  rw [filterMap_cons, hseg]
  cases shm.segment <;> rfl

theorem retires_answered
    (hp : s.phase = .answered final) (hf : final.msg = .response shm) (hr : shm.retire = some r) : r ∈ s.retires := by
  refine mem_filterMap.2 ⟨final, mem_append_right _ ?_, ?_⟩
  · rw [hp]
    exact mem_singleton.2 rfl
  · unfold HostFrame.retire
    rw [hf]
    exact hr

theorem retires_taken (hi : s'.inbox = s.inbox) (hp : s'.phase.frames = []) : ∀ r ∈ s'.retires, r ∈ s.retires := by
  intro r hr
  obtain ⟨f, hf, hfr⟩ := mem_filterMap.1 hr
  unfold RemoteSlot.frames at hf
  rw [hi, hp, append_nil] at hf
  exact mem_filterMap.2 ⟨f, mem_append_left _ hf, hfr⟩

theorem effect_safe (h : Safe e) (heff : Effect flags kind e e') : Safe e' := by
  cases heff with
  | books hsame => exact h.congr hsame.generation hsame.slots hsame.nextId hsame.child
  | slot hs hm =>
    obtain ⟨hsh, hle⟩ := shrinks_of_moved hm
    exact h.setSlot hs hsh fun i => token_of_moved hm hle _ i
  | cancel hs _ _ _ hm =>
    obtain ⟨hsh, hle⟩ := shrinks_of_moved hm
    refine h.send hs hsh _ _ (fun i => token_of_moved hm hle _ i) fun _ i => ?_
    have hzero : ∀ id, CoreFrame.token i ⟨.cancel, id⟩ = 0 := fun id => if_neg (by simp)
    rw [hzero]
    exact token_of_moved hm hle _ i
  | write hs hp => exact h.write hs hp
  | deliver hc ho hs _ hid hg _ => exact h.deliver hc ho hs hid hg
  | drop hc ho => exact h.dropFrame hc ho
  | down _ error => exact h.down error
  | release hs => exact h.releaseSlot hs
  | enter _ hid hg hp hi hm _ hup =>
    refine h.acquireSlot hid hg ?_ hm hup
    unfold RemoteSlot.frames
    rw [hi, hp]
    rfl
  | spawn hdown => exact h.spawn hdown
  | host _ hc hh =>
    obtain ⟨hpid, ht⟩ := h.host _ hc
    exact h.setChild (tracked_step ht hh) ((pid_step hh).trans hpid)
  | retire => exact h.forget _
  | enlist m => exact h.congr rfl rfl rfl rfl
  | @map k s final shm m size _ hs hp hf hn hm =>
    have huses := uses_answered hp hf
    rw [hn] at huses
    have huses' : RemoteSlot.uses { s with responseShm := some m, phase := .decoding } =
        s.inbox.filterMap HostFrame.segment ++ [m.name] := by
      change (s.inbox ++ []).filterMap _ ++ [m.name] = _
      rw [append_nil]
    refine h.setSlot hs ⟨rfl, rfl, fun n hn => ?_, retires_taken rfl rfl⟩ fun i => ?_
    · rw [huses'] at hn
      rw [huses]
      exact mem_append_left _ hn
    · unfold RemoteSlot.token
      rw [huses, huses', hp]
      simp only [length_append]
      split
      · exact Nat.add_le_add_left (Nat.le_add_right _ _) _
      · exact le_refl _
  | @giveUp k s final shm name size result hs hp hf hn =>
    have huses := uses_answered hp hf
    rw [hn] at huses
    have huses' : RemoteSlot.uses { s with phase := .holding result } =
        s.inbox.filterMap HostFrame.segment ++ (s.responseShm.map Mapping.name).toList := by
      change (s.inbox ++ []).filterMap _ ++ _ = _
      rw [append_nil]
    refine h.returnSegment hs ⟨rfl, rfl, fun n hn => ?_, retires_taken rfl rfl⟩ ?_ rfl
    · rw [huses'] at hn
      rw [huses]
      rcases mem_append.1 hn with hn | hn
      · exact mem_append_left _ (mem_append_left _ hn)
      · exact mem_append_right _ hn
    · rw [huses, huses']
      simp only [length_append, map_some, toList_some, length_singleton]
      omega

theorem effect_generation (heff : Effect flags kind e e') :
    e.generation ≤ e'.generation ∧ (kind ≠ .downs → e'.generation = e.generation) := by
  have hsame : ∀ {x : ℕ}, x = e.generation → e.generation ≤ x ∧ (kind ≠ .downs → x = e.generation) :=
    fun hx => ⟨le_of_eq hx.symm, fun _ => hx⟩
  cases heff with
  | books hbooks => exact hsame hbooks.generation
  | slot => exact hsame rfl
  | cancel => exact hsame (generation_writeFrame e _ _)
  | write => exact hsame (generation_writeFrame e _ _)
  | deliver => exact hsame rfl
  | drop => exact hsame (generation_dropFrame _ _)
  | down hm => exact ⟨Nat.le_succ _, fun hkind => absurd hm hkind⟩
  | @release k s =>
    unfold RemoteEngine.releaseSlot
    split
    · exact hsame (extends_returnSegment e s).generation
    · exact hsame rfl
  | enter =>
    unfold RemoteEngine.acquireSlot
    simp only
    split <;> exact hsame rfl
  | spawn => exact hsame rfl
  | host => exact hsame rfl
  | @retire _ _ _ shm =>
    cases shm.retire <;> exact hsame rfl
  | enlist => exact hsame rfl
  | map => exact hsame rfl
  | @giveUp k s => exact hsame (extends_returnSegment e s).generation

theorem Unread.set (h : Unread e) (hs : e.slots[k]? = some s)
    (hslots : e'.slots = e.slots.set k s') (hm : s.responseShm = none → s'.responseShm = none) : Unread e' := by
  intro x hx
  rw [hslots] at hx
  rcases mem_or_eq_of_mem_set hx with hx | rfl
  · exact h x hx
  · exact hm (h s (mem_of_getElem? hs))

theorem Unread.of_slots (h : Unread e) (hslots : e'.slots = e.slots) : Unread e' := by
  intro x hx
  rw [hslots] at hx
  exact h x hx

theorem effect_unread (h : Unread e) (hkind : kind ≠ .maps) (heff : Effect flags kind e e') : Unread e' := by
  cases heff with
  | books hsame => exact h.of_slots hsame.slots
  | slot hs hm => exact h.set hs rfl fun hnone => hm.shm.trans hnone
  | cancel hs _ _ _ hm => exact h.set hs (set_slots (slots_writeFrame e _ _) _ _) fun hnone => hm.shm.trans hnone
  | write hs _ => exact h.set hs (set_slots (slots_writeFrame e _ _) _ _) id
  | deliver _ _ hs => exact h.set hs rfl id
  | drop => exact h.of_slots (slots_dropFrame _ _)
  | down _ error =>
    intro s hs
    obtain ⟨x, hx, heq⟩ := mem_failAll hs
    rw [heq]
    exact h x hx
  | @release k s hs =>
    unfold RemoteEngine.releaseSlot
    split
    · exact h.set hs (set_slots (slots_returnSegment e s) _ _) fun _ => rfl
    · exact h.set hs rfl fun _ => rfl
  | @enter s _ _ _ _ _ hm =>
    unfold RemoteEngine.acquireSlot
    simp only
    split
    · intro x hx
      rcases mem_or_eq_of_mem_set hx with hx | rfl
      · exact h x hx
      · exact hm
    · intro x hx
      rcases mem_append.1 hx with hx | hx
      · exact h x hx
      · rw [mem_singleton.1 hx]
        exact hm
  | spawn => exact h.of_slots rfl
  | host => exact h.of_slots rfl
  | @retire _ _ _ shm =>
    cases shm.retire with
    | none => exact h
    | some r => exact h.of_slots rfl
  | enlist => exact h.of_slots rfl
  | map hmaps => exact absurd hmaps hkind
  | @giveUp k s _ _ _ _ _ hs => exact h.set hs (set_slots (slots_returnSegment e s) _ _) id

theorem effects_generation (heff : Effects flags kind e e') :
    e.generation ≤ e'.generation ∧ (kind ≠ .downs → e'.generation = e.generation) := by
  induction heff with
  | refl => exact ⟨le_refl _, fun _ => rfl⟩
  | tail _ hlast ih =>
    obtain ⟨hle, hsame⟩ := effect_generation hlast
    exact ⟨ih.1.trans hle, fun hkind => (hsame hkind).trans (ih.2 hkind)⟩

theorem effects_safe (h : Safe e) (heff : Effects flags kind e e') : Safe e' := by
  induction heff with
  | refl => exact h
  | tail _ hlast ih => exact effect_safe ih hlast

/- The mappings that calls point to are in the table, but for those in `lost`. -/
def Live (lost : ℕ → Mapping → Prop) (e : RemoteEngine) : Prop :=
  ∀ (k : ℕ) (s : RemoteSlot) (m : Mapping), e.slots[k]? = some s → s.responseShm = some m →
    m ∈ e.segments ∨ lost k m

section Live

variable {lost : ℕ → Mapping → Prop} {e e' : RemoteEngine}

theorem Live.set (h : Live lost e) (hs : e.slots[k]? = some s)
    (hslots : e'.slots = e.slots.set k s') (hsegs : e'.segments = e.segments)
    (hm : ∀ m, s'.responseShm = some m → s.responseShm = some m ∨ m ∈ e.segments) : Live lost e' := by
  intro j x m hx hxm
  rw [hslots, getElem?_set] at hx
  rw [hsegs]
  split at hx
  · next hk =>
    split at hx
    · cases hx
      subst hk
      obtain hold | hmem := hm m hxm
      · exact h k s m hs hold
      · exact .inl hmem
    · cases hx
  · exact h j x m hx hxm

theorem Live.of_slots (h : Live lost e) (hslots : e'.slots = e.slots)
    (hsegs : ∀ s ∈ e.slots, ∀ m, s.responseShm = some m → m ∈ e.segments → m ∈ e'.segments) : Live lost e' := by
  intro k s m hs hm
  rw [hslots] at hs
  obtain hmem | hlost := h k s m hs hm
  · exact .inl (hsegs s (mem_of_getElem? hs) m hm hmem)
  · exact .inr hlost

theorem segments_writeFrame (e : RemoteEngine) (f : CoreFrame) (g : ℕ) : (e.writeFrame f g).segments = e.segments := by
  obtain heq | ⟨h, -, -, heq⟩ := writeFrame_cases e f g <;> rw [heq]

theorem segments_returnSegment (e : RemoteEngine) (s : RemoteSlot) : (e.returnSegment s).segments = e.segments := by
  unfold RemoteEngine.returnSegment
  split
  · exact segments_writeFrame e _ _
  · rfl

variable {m : Mapping}

theorem mem_forgetRetired {retire : Option SegmentName} (hmem : m ∈ e.segments)
    (hne : retire ≠ some m.name) : m ∈ (e.forgetRetired retire).segments := by
  cases retire with
  | none => exact hmem
  | some r => exact mem_filter.2 ⟨hmem, decide_eq_true fun heq => hne (congrArg some heq.symm)⟩

theorem mem_dropFrame {f : HostFrame} (hmem : m ∈ e.segments) (hne : f.retire ≠ some m.name) :
    m ∈ (e.dropFrame f).segments := by
  unfold RemoteEngine.dropFrame
  split
  · next shm hmsg =>
    have hretire : f.retire = shm.retire := by
      unfold HostFrame.retire
      rw [hmsg]
    rw [hretire] at hne
    split
    · unfold sendControl
      rw [segments_writeFrame]
      exact mem_forgetRetired hmem hne
    · exact mem_forgetRetired hmem hne
  · exact hmem

theorem effect_live (hsafe : Safe e) (h : Live lost e)
    (hcalm : e'.generation ≠ e.generation → Unread e) (heff : Effect flags kind e e') : Live lost e' := by
  have hunused : ∀ r, (∃ a ∈ e.slots, r ∈ a.retires) → ∀ s ∈ e.slots, ∀ m, s.responseShm = some m → m.name ≠ r := by
    rintro r ⟨a, ha, hr⟩ s hs m hm rfl
    exact hsafe.apart a ha s hs _ hr (mem_uses_of_shm hm)
  cases heff with
  | books hsame =>
    refine h.of_slots hsame.slots fun s hs m _ hmem => ?_
    rw [hsame.segments]
    exact hmem
  | slot hs hm => exact h.set hs rfl rfl fun m hmm => .inl (hm.shm ▸ hmm)
  | cancel hs _ _ _ hm =>
    exact h.set hs (set_slots (slots_writeFrame e _ _) _ _) (segments_writeFrame e _ _) fun m hmm => .inl (hm.shm ▸ hmm)
  | write hs _ =>
    exact h.set hs (set_slots (slots_writeFrame e _ _) _ _) (segments_writeFrame e _ _) fun m hmm => .inl hmm
  | deliver _ _ hs => exact h.set hs rfl rfl fun m hmm => .inl hmm
  | @drop host f rest hc ho =>
    refine h.of_slots (slots_dropFrame _ _) fun s hs m hm hmem => ?_
    refine mem_dropFrame hmem fun hr => ?_
    have hf : f ∈ host.output := ho ▸ mem_cons_self
    exact hsafe.names_apart hc (.inl (.inr (.inl ⟨f, hf, hr⟩))) (.inr ⟨s, hs, mem_uses_of_shm hm⟩) rfl
  | down _ error =>
    intro k s m hs hm
    obtain ⟨x, hx, heq⟩ := mem_failAll (mem_of_getElem? hs)
    rw [heq] at hm
    rw [hcalm (Nat.succ_ne_self _) x hx] at hm
    cases hm
  | @release k s hs =>
    unfold RemoteEngine.releaseSlot
    split
    · exact h.set hs (set_slots (slots_returnSegment e s) _ _) (segments_returnSegment e s) nofun
    · exact h.set hs rfl rfl nofun
  | @enter s _ _ _ _ _ hm =>
    unfold RemoteEngine.acquireSlot
    simp only
    split
    · next k hk =>
      obtain ⟨hlt, -⟩ := findIdx?_eq_some_iff_getElem.1 hk
      refine h.set (getElem?_eq_getElem hlt) rfl rfl fun m hmm => ?_
      rw [hm] at hmm
      cases hmm
    · intro k x m hx hxm
      rw [getElem?_append] at hx
      split at hx
      · exact h k x m hx hxm
      · have hmem := mem_of_getElem? hx
        rw [mem_singleton] at hmem
        rw [hmem, hm] at hxm
        cases hxm
  | spawn => exact h.of_slots rfl fun _ _ _ _ hmem => hmem
  | host => exact h.of_slots rfl fun _ _ _ _ hmem => hmem
  | @retire k s final shm hs hp hf =>
    have hslots : (e.forgetRetired shm.retire).slots = e.slots := by cases shm.retire <;> rfl
    refine h.of_slots hslots fun x hx m hm hmem => mem_forgetRetired hmem fun hr => ?_
    exact hunused _ ⟨s, mem_of_getElem? hs, retires_answered hp hf hr⟩ x hx m hm rfl
  | enlist m => exact h.of_slots rfl fun _ _ _ _ hmem => mem_append_left _ hmem
  | map _ hs _ _ _ hm =>
    refine h.set hs rfl rfl fun m' hm' => ?_
    cases hm'
    exact .inr hm
  | @giveUp k s _ _ _ _ _ hs =>
    exact h.set hs (set_slots (slots_returnSegment e s) _ _) (segments_returnSegment e s) fun m hmm => .inl hmm

theorem effects_live (heff : Effects flags kind e e') :
    Safe e → Live lost e → (e'.generation ≠ e.generation → Unread e) → Live lost e' := by
  induction heff using Relation.ReflTransGen.head_induction_on with
  | refl => exact fun _ h _ => h
  | @head e e₁ hfirst hrest ih =>
    intro hsafe h hcalm
    obtain ⟨hle, -⟩ := effect_generation hfirst
    obtain ⟨hle', hsame'⟩ := effects_generation hrest
    refine ih (effect_safe hsafe hfirst) (effect_live hsafe h (fun hne => hcalm (by omega)) hfirst) fun hne => ?_
    refine effect_unread (hcalm (by omega)) (fun hkind => ?_) hfirst
    exact hne (hsame' (by rw [hkind]; nofun))

end Live

theorem safe_init : Safe RemoteEngine.init := by
  refine ⟨fun s hs => ?_, fun a ha => ?_, fun h hc => ?_⟩
  · cases hs
  · cases ha
  cases hc
  refine ⟨rfl, tracked_new (fun i => ?_) (held_coreView _) (fun i n => ?_) (fun r => ?_) 0⟩
  · change (if 1 ≤ i then 1 else 0) + 0 ≤ 1
    split <;> omega
  · rintro ⟨s, hs, -⟩
    cases hs
  · rintro ⟨s, hs, -⟩
    cases hs

/- A section that takes a host down finds no call with a mapped response. -/
def CalmReap (opts : RemoteOptions) (e : RemoteEngine) (act : RemoteAct) : Prop :=
  ∀ e' : RemoteEngine, e.step opts act = some e' → e'.generation ≠ e.generation → Unread e

variable (opts : RemoteOptions)

theorem safe_step (e : RemoteEngine) (act : RemoteAct) (e' : RemoteEngine) (h : Safe e)
    (hstep : e.step opts act = some e') : Safe e' := by
  obtain ⟨kind, heff⟩ := step_effects opts hstep
  exact effects_safe h heff

theorem live_step (e : RemoteEngine) (act : RemoteAct) (e' : RemoteEngine)
    (h : Safe e ∧ Live lost e) (hok : CalmReap opts e act) (hstep : e.step opts act = some e') :
    Safe e' ∧ Live lost e' := by
  obtain ⟨kind, heff⟩ := step_effects opts hstep
  exact ⟨effects_safe h.1 heff, effects_live heff h.1 h.2 (hok e' hstep)⟩

theorem step_generation {act : RemoteAct} (hstep : e.step opts act = some e') : e.generation ≤ e'.generation := by
  obtain ⟨kind, heff⟩ := step_effects opts hstep
  exact (effects_generation heff).1

theorem run_generation {acts : List RemoteAct}
    (hrun : run (RemoteEngine.step opts) e acts = some e') : e.generation ≤ e'.generation := by
  have hstep : ∀ (x : RemoteEngine) (act : RemoteAct) (y : RemoteEngine), e.generation ≤ x.generation →
      x.step opts act = some y → e.generation ≤ y.generation :=
    fun x act y hle hxy => hle.trans (step_generation opts hxy)
  exact run_invariant hstep hrun (le_refl _)

theorem meets_calmReap (acts : List RemoteAct) (e e' : RemoteEngine)
    (hrun : run (RemoteEngine.step opts) e acts = some e') (hgen : e'.generation = e.generation) :
    Meets (RemoteEngine.step opts) (CalmReap opts) e acts := by
  induction acts generalizing e with
  | nil => trivial
  | cons act rest ih =>
    obtain ⟨e₁, hstep, hrest⟩ := run_cons hrun
    have hle := step_generation opts hstep
    have hle' := run_generation opts hrest
    refine .cons (fun x hx hne => ?_) hstep (ih e₁ hrest (by omega))
    rw [hstep] at hx
    cases hx
    exact absurd (by omega) hne

/-- In every interleaving in which no host is reaped while a call has a mapped response, the mapping of
every call's response is there until the call is released. -/
theorem response_readable (opts : RemoteOptions) (acts : List RemoteAct) (e : RemoteEngine)
    (hrun : run (RemoteEngine.step opts) RemoteEngine.init acts = some e)
    (hcalm : Meets (RemoteEngine.step opts) (CalmReap opts) RemoteEngine.init acts) :
    ∀ s ∈ e.slots, ∀ m, s.responseShm = some m → m ∈ e.segments := by
  have hinit : Live (fun _ _ => False) RemoteEngine.init := by
    intro k s m hs
    cases hs
  obtain ⟨-, hlive⟩ := run_invariant_of_meets (live_step opts) hrun hcalm ⟨safe_init, hinit⟩
  intro s hs m hm
  obtain ⟨k, hk, heq⟩ := getElem_of_mem hs
  obtain hmem | hlost := hlive k s m (List.getElem?_eq_some_iff.2 ⟨hk, heq⟩) hm
  · exact hmem
  · cases hlost

def mapsResponse : List RemoteAct :=
  [.begin .run false 0 .started, .write 0, .host .read, .host .start, .host (.claim 0 1 true),
    .host (.respond 0 true), .wait 0 ⟨0, fun _ => false⟩, .read 0 (.data 1) ⟨0, fun _ => false⟩,
    .processed 0 ⟨0, fun _ => false⟩, .answer 0 true]

def mappedCall : RemoteEngine :=
  { child := some {
      pid := 0
      segments := [{ name := ⟨0, 0⟩, size := 1048576, busyId := some 1 }]
      nextSeq := 1
      finished := [1] }
    slots := [{ id := 1, phase := .decoding, finalQueued := true, responseShm := some ⟨0, ⟨0, 0⟩, 1048576⟩ }]
    nextId := 2
    inFlight := 1
    starts := 1
    segments := [⟨0, ⟨0, 0⟩, 1048576⟩]
    nextKey := 1
    written := [(0, ⟨.run, 1⟩)] }

theorem mappedCall_reached :
    run (RemoteEngine.step remoteSample) RemoteEngine.init mapsResponse = some mappedCall := rfl

def secondRuns : List RemoteAct :=
  [.begin .run false 0 .started, .write 1, .host .read, .host .start, .host (.claim 0 1 true),
    .wait 1 ⟨0, fun _ => false⟩]

theorem response_readable_secondRuns :
    ∃ e, run (RemoteEngine.step remoteSample) RemoteEngine.init (mapsResponse ++ secondRuns) = some e ∧
      e.slots.map (·.responseShm) = [some ⟨0, ⟨0, 0⟩, 1048576⟩, none] ∧
      ∀ s ∈ e.slots, ∀ m, s.responseShm = some m → m ∈ e.segments := by
  obtain ⟨e, hrun, hshm, hgen⟩ : ∃ e, run (RemoteEngine.step remoteSample) mappedCall secondRuns = some e ∧
      e.slots.map (·.responseShm) = [some ⟨0, ⟨0, 0⟩, 1048576⟩, none] ∧ e.generation = 0 := ⟨_, rfl, rfl, rfl⟩
  have hall := run_append_eq mappedCall_reached hrun
  exact ⟨e, hall, hshm, response_readable remoteSample _ e hall (meets_calmReap remoteSample _ _ e hall hgen)⟩

def hostGoes : List RemoteAct :=
  [.begin .run false 0 .started, .write 1, .wait 1 ⟨0, fun _ => false⟩, .host .die,
    .read 1 (.closed (lit "killed by signal 9") []) ⟨0, fun _ => false⟩]

theorem response_unmapped :
    ∃ e, run (RemoteEngine.step remoteSample) RemoteEngine.init (mapsResponse ++ hostGoes) = some e ∧
      e.slots.map (·.responseShm) = [some ⟨0, ⟨0, 0⟩, 1048576⟩, none] ∧ e.segments = [] := by
  obtain ⟨e, hrun, hshm, hsegs⟩ : ∃ e, run (RemoteEngine.step remoteSample) mappedCall hostGoes = some e ∧
      e.slots.map (·.responseShm) = [some ⟨0, ⟨0, 0⟩, 1048576⟩, none] ∧ e.segments = [] := ⟨_, rfl, rfl, rfl⟩
  exact ⟨e, run_append_eq mappedCall_reached hrun, hshm, hsegs⟩

end AgentCpp
