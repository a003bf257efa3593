/-
# `PureDataPacket.Dpd.Nesting` — what a traversal queues

`Rendering` is the order in which the methods of a chain are meant to run: for the
enabled outlets of an object, from the highest to the lowest, the accumulator and then
all that is below; at the end the cleanup.  Below an outlet are first the inspectors of
the objects connected to it, and then the rendering of each.

A traversal queues just that, and in it the methods of `3dp_push` objects are
nested like brackets.

| | |
| :-- | :-- |
| `Rendering` | the methods of an object and of all below it |
| `RenderingOutlets` | the same for the first outlets, from the last of them down |
| `accumulate_renders` | the rank is enough: no message is lost on the way down |
| `Nested` | each push is closed by the pop of the same object |
-/
import PureDataPacket.Dpd.Traversal

namespace PureDataPacket

/-- The inspectors of the objects that an outlet is connected to. -/
def DpdPatch.inspections (g : DpdPatch) (connections : List Nat) : List DpdCall :=
  (connections.filter fun c => (g.object c).activeInlet).map fun c => ⟨c, .inspector⟩

/-- The cleanup, if there is one. -/
def DpdPatch.cleanups (g : DpdPatch) (o : Nat) : List DpdCall :=
  if (g.object o).cleanup then [⟨o, .cleanup⟩] else []

mutual

/-- The methods of an object and of all below it. -/
inductive Rendering (g : DpdPatch) : Nat → OutletFlags → List DpdCall → OutletFlags → Prop
  | mk {o : Nat} {flags flags' : OutletFlags} {calls : List DpdCall}
      (houtlets : RenderingOutlets g o (g.object o).outlets.length flags calls flags') :
      Rendering g o flags (calls ++ g.cleanups o)
        (Function.update flags' o ((g.object o).notify (flags' o)))

/-- The same for the first outlets, from the last of them down. -/
inductive RenderingOutlets (g : DpdPatch) :
    Nat → Nat → OutletFlags → List DpdCall → OutletFlags → Prop
  | none {o : Nat} {flags : OutletFlags} : RenderingOutlets g o 0 flags [] flags
  | disabled {o i : Nat} {flags flags' : OutletFlags} {calls : List DpdCall}
      (hflag : flags o i = false) (hrest : RenderingOutlets g o i flags calls flags') :
      RenderingOutlets g o (i + 1) flags calls flags'
  | enabled {o i : Nat} {flags flags₁ flags' : OutletFlags} {outlet : DpdOutlet}
      {below calls : List DpdCall} (houtlet : (g.object o).outlets[i]? = some outlet)
      (hflag : flags o i = true) (hbelow : RenderingAll g outlet.connections flags below flags₁)
      (hrest : RenderingOutlets g o i flags₁ calls flags') :
      RenderingOutlets g o (i + 1) flags
        (⟨o, .accum i⟩ :: ((g.inspections outlet.connections ++ below) ++ calls)) flags'

/-- One object after the other. -/
inductive RenderingAll (g : DpdPatch) :
    List Nat → OutletFlags → List DpdCall → OutletFlags → Prop
  | nil {flags : OutletFlags} : RenderingAll g [] flags [] flags
  | cons {c : Nat} {rest : List Nat} {flags flags₁ flags' : OutletFlags}
      {calls calls' : List DpdCall} (hactive : (g.object c).activeInlet = true)
      (hfirst : Rendering g c flags calls flags₁) (hrest : RenderingAll g rest flags₁ calls' flags') :
      RenderingAll g (c :: rest) flags (calls ++ calls') flags'
  | skip {c : Nat} {rest : List Nat} {flags flags' : OutletFlags} {calls : List DpdCall}
      (hactive : (g.object c).activeInlet = false) (hrest : RenderingAll g rest flags calls flags') :
      RenderingAll g (c :: rest) flags calls flags'

end

/-! ## A traversal queues a rendering -/

section Queues

variable {g : DpdPatch} {p : Int}

@[simp] theorem callsOf_append (acts acts' : List DpdAct) :
    callsOf (acts ++ acts') = callsOf acts ++ callsOf acts' := by
  unfold callsOf
  rw [List.filterMap_append]

@[simp] theorem callsOf_store (o : Nat) (p : Int) (acts : List DpdAct) :
    callsOf (.store o p :: acts) = callsOf acts := rfl

@[simp] theorem callsOf_queue (call : DpdCall) (acts : List DpdAct) :
    callsOf (.queue call :: acts) = call :: callsOf acts := rfl

@[simp] theorem callsOf_nil : callsOf [] = [] := rfl

theorem callsOf_inspect (connections : List Nat) :
    callsOf (connections.flatMap (g.inspect p)) = g.inspections connections := by
  induction connections with
  | nil => rfl
  | cons c rest ih =>
      rw [List.flatMap_cons, callsOf_append, ih]
      unfold DpdPatch.inspections DpdPatch.inspect
      cases hactive : (g.object c).activeInlet with
      | true =>
          rw [if_pos rfl, List.filter_cons_of_pos (by simp [hactive])]
          rfl
      | false =>
          rw [if_neg Bool.false_ne_true, List.filter_cons_of_neg (by simp [hactive])]
          rfl

/-- What a message to an object has to queue. -/
def Renders (g : DpdPatch) (send : Nat → OutletFlags → List DpdAct × OutletFlags) (c : Nat) :
    Prop :=
  ∀ flags, ((g.object c).activeInlet = true →
      Rendering g c flags (callsOf (send c flags).1) (send c flags).2) ∧
    ((g.object c).activeInlet = false → send c flags = ([], flags))

variable {send : Nat → OutletFlags → List DpdAct × OutletFlags}

theorem sendAll_renders : ∀ (connections : List Nat) (flags : OutletFlags),
    (∀ c ∈ connections, Renders g send c) →
      RenderingAll g connections flags (callsOf (DpdPatch.sendAll send connections flags).1)
        (DpdPatch.sendAll send connections flags).2 := by
  intro connections
  induction connections with
  | nil =>
      intro flags _
      exact .nil
  | cons c rest ih =>
      intro flags hsend
      have hrest := ih (send c flags).2 fun c' hc' => hsend c' (List.mem_cons_of_mem _ hc')
      have hc := hsend c List.mem_cons_self flags
      unfold DpdPatch.sendAll
      rw [callsOf_append]
      cases hactive : (g.object c).activeInlet with
      | true => exact .cons hactive (hc.1 hactive) hrest
      | false =>
          rw [hc.2 hactive] at hrest ⊢
          exact .skip hactive hrest

theorem outletLoop_renders {o : Nat}
    (hsend : ∀ outlet ∈ (g.object o).outlets, ∀ c ∈ outlet.connections, Renders g send c) :
    ∀ (i : Nat) (flags : OutletFlags), i ≤ (g.object o).outlets.length →
      RenderingOutlets g o i flags (callsOf (g.outletLoop p send o i flags).1)
        (g.outletLoop p send o i flags).2 := by
  intro i
  induction i with
  | zero =>
      intro flags _
      exact .none
  | succ i ih =>
      intro flags hi
      have houtlet : (g.object o).outlets[i]? = some (g.object o).outlets[i] :=
        List.getElem?_eq_getElem hi
      unfold DpdPatch.outletLoop
      rw [houtlet]
      dsimp only
      cases hflag : flags o i with
      | false =>
          rw [if_neg Bool.false_ne_true]
          exact .disabled hflag (ih flags (by omega))
      | true =>
          rw [if_pos rfl, callsOf_queue, callsOf_append]
          unfold DpdPatch.outletDpd
          dsimp only
          rw [callsOf_append, callsOf_inspect]
          exact .enabled houtlet hflag
            (sendAll_renders _ flags (hsend _ (List.getElem_mem hi))) (ih _ (by omega))

theorem bangWith_renders {o : Nat} (flags : OutletFlags)
    (hsend : ∀ outlet ∈ (g.object o).outlets, ∀ c ∈ outlet.connections, Renders g send c) :
    Rendering g o flags (callsOf (g.bangWith p send o flags).1) (g.bangWith p send o flags).2 := by
  have houtlets := outletLoop_renders (p := p) hsend (g.object o).outlets.length flags (Nat.le_refl _)
  unfold DpdPatch.bangWith
  dsimp only
  rw [callsOf_append]
  have hcleanup : callsOf (if (g.object o).cleanup then [.queue ⟨o, .cleanup⟩] else []) =
      g.cleanups o := by
    unfold DpdPatch.cleanups
    split <;> rfl
  rw [hcleanup]
  exact .mk houtlets

theorem accumulate_renders (n : Nat) : ∀ o, g.rank o < n → Renders g (g.accumulate p n) o := by
  induction n with
  | zero =>
      intro o hlt
      exact absurd hlt (Nat.not_lt_zero _)
  | succ n ih =>
      intro o hlt flags
      have hbelow : ∀ outlet ∈ (g.object o).outlets, ∀ c ∈ outlet.connections,
          Renders g (g.accumulate p n) c := by
        intro outlet houtlet c hc
        have := g.acyclic o outlet houtlet c hc
        exact ih c (by omega)
      unfold DpdPatch.accumulate
      constructor
      · intro hactive
        rw [if_pos hactive, callsOf_store]
        exact bangWith_renders flags hbelow
      · intro hactive
        rw [if_neg (by rw [hactive]; exact Bool.false_ne_true)]

theorem bang_renders (o : Nat) (flags : OutletFlags) :
    Rendering g o flags (callsOf (g.bang p o flags).1) (g.bang p o flags).2 := by
  apply bangWith_renders
  intro outlet houtlet c hc
  exact accumulate_renders (g.rank o) c (g.acyclic o outlet houtlet c hc)

end Queues

/-! ## Brackets -/

/-- What `3dp_push` does to the matrix stack. -/
inductive Bracket where
  | push (object : Nat)
  | pop (object : Nat)
deriving DecidableEq

/-- Each push is closed by the pop of the same object, and what is between them is nested. -/
inductive Nested : List Bracket → Prop
  | nil : Nested []
  | pair {o : Nat} {inner rest : List Bracket} (hinner : Nested inner) (hrest : Nested rest) :
      Nested (.push o :: (inner ++ .pop o :: rest))

theorem Nested.append {l l' : List Bracket} (h : Nested l) (h' : Nested l') :
    Nested (l ++ l') := by
  induction h with
  | nil => exact h'
  | @pair o inner rest hinner _ _ ih =>
      have heq : (Bracket.push o :: (inner ++ .pop o :: rest)) ++ l' =
          .push o :: (inner ++ .pop o :: (rest ++ l')) := by simp
      rw [heq]
      exact .pair hinner ih

/-- `pdp_3d_push_process_right` pushes, `pdp_3d_push_process_left` pops. -/
def DpdPatch.bracketOf (g : DpdPatch) (call : DpdCall) : Option Bracket :=
  if g.isPush call.object then
    match call.method with
    | .accum 1 => some (.push call.object)
    | .accum 0 => some (.pop call.object)
    | _ => none
  else none

/-- The pushes and pops of a list of methods. -/
def DpdPatch.brackets (g : DpdPatch) (calls : List DpdCall) : List Bracket :=
  calls.filterMap g.bracketOf

/-- The outlets of `3dp_push` objects are enabled. -/
def PushEnabled (g : DpdPatch) (flags : OutletFlags) : Prop :=
  ∀ o, g.isPush o = true → flags o 0 = true ∧ flags o 1 = true

section Brackets

variable {g : DpdPatch}

@[simp] theorem brackets_append (calls calls' : List DpdCall) :
    g.brackets (calls ++ calls') = g.brackets calls ++ g.brackets calls' := by
  unfold DpdPatch.brackets
  rw [List.filterMap_append]

@[simp] theorem brackets_nil : g.brackets [] = [] := rfl

theorem brackets_cons_none {call : DpdCall} (h : g.bracketOf call = none) (calls : List DpdCall) :
    g.brackets (call :: calls) = g.brackets calls := by
  unfold DpdPatch.brackets
  rw [List.filterMap_cons_none h]

theorem brackets_cons_some {call : DpdCall} {b : Bracket} (h : g.bracketOf call = some b)
    (calls : List DpdCall) : g.brackets (call :: calls) = b :: g.brackets calls := by
  unfold DpdPatch.brackets
  rw [List.filterMap_cons_some h]

theorem bracketOf_notPush {call : DpdCall} (h : g.isPush call.object = false) :
    g.bracketOf call = none := by
  unfold DpdPatch.bracketOf
  rw [if_neg (by rw [h]; exact Bool.false_ne_true)]

theorem brackets_inspections (connections : List Nat) :
    g.brackets (g.inspections connections) = [] := by
  unfold DpdPatch.brackets
  rw [List.filterMap_eq_nil_iff]
  intro call hcall
  obtain ⟨c, _, rfl⟩ := List.mem_map.mp hcall
  unfold DpdPatch.bracketOf
  split <;> rfl

theorem brackets_cleanups (o : Nat) : g.brackets (g.cleanups o) = [] := by
  unfold DpdPatch.brackets
  rw [List.filterMap_eq_nil_iff]
  intro call hcall
  unfold DpdPatch.cleanups at hcall
  split at hcall
  · rw [List.mem_singleton.mp hcall]
    unfold DpdPatch.bracketOf
    split <;> rfl
  · exact absurd hcall List.not_mem_nil

/-- The brackets of the first `n` outlets of an object. -/
def OutletBrackets (g : DpdPatch) (o n : Nat) (l : List Bracket) : Prop :=
  if g.isPush o = true then
    match n with
    | 0 => l = []
    | 1 => ∃ rest, Nested rest ∧ l = .pop o :: rest
    | _ => Nested l
  else Nested l

mutual

theorem Rendering.nested {o : Nat} {flags flags' : OutletFlags} {calls : List DpdCall} :
    Rendering g o flags calls flags' → PushEnabled g flags →
      Nested (g.brackets calls) ∧ PushEnabled g flags'
  | @Rendering.mk _ _ _ flags₁ calls₁ houtlets => by
      intro hflags
      obtain ⟨hbrackets, hflags'⟩ := houtlets.nested (Nat.le_refl _) hflags
      rw [brackets_append, brackets_cleanups, List.append_nil]
      constructor
      · unfold OutletBrackets at hbrackets
        split at hbrackets
        · next hpush =>
            obtain ⟨left, right, houtlets', _⟩ := g.push_outlets o hpush
            rw [houtlets'] at hbrackets
            exact hbrackets
        · exact hbrackets
      · intro o' hpush
        by_cases heq : o' = o
        · subst heq
          obtain ⟨_, _, _, hnotify⟩ := g.push_outlets o' hpush
          rw [Function.update_self, hnotify]
          exact hflags' o' hpush
        · rw [Function.update_of_ne heq]
          exact hflags' o' hpush

theorem RenderingOutlets.nested {o n : Nat} {flags flags' : OutletFlags} {calls : List DpdCall} :
    RenderingOutlets g o n flags calls flags' → n ≤ (g.object o).outlets.length →
      PushEnabled g flags → OutletBrackets g o n (g.brackets calls) ∧ PushEnabled g flags'
  | @RenderingOutlets.none _ _ _ => by
      intro _ hflags
      refine ⟨?_, hflags⟩
      unfold OutletBrackets
      split
      · rfl
      · exact .nil
  | @RenderingOutlets.disabled _ _ i _ _ _ hflag hrest => by
      intro hn hflags
      obtain ⟨hbrackets, hflags'⟩ := hrest.nested (by omega) hflags
      refine ⟨?_, hflags'⟩
      unfold OutletBrackets at hbrackets ⊢
      split at hbrackets
      · next hpush =>
          obtain ⟨left, right, houtlets, _⟩ := g.push_outlets o hpush
          rw [houtlets] at hn
          have hi : i < 2 := hn
          obtain ⟨h0, h1⟩ := hflags o hpush
          obtain rfl | rfl : i = 0 ∨ i = 1 := by omega
          · rw [hflag] at h0
            cases h0
          · rw [hflag] at h1
            cases h1
      · next hpush =>
          rw [if_neg hpush]
          exact hbrackets
  | @RenderingOutlets.enabled _ _ i _ _ _ outlet below calls₁ houtlet hflag hbelow hrest => by
      intro hn hflags
      obtain ⟨hinner, hflags₁⟩ := hbelow.nested hflags
      obtain ⟨hbrackets, hflags'⟩ := hrest.nested (by omega) hflags₁
      refine ⟨?_, hflags'⟩
      unfold OutletBrackets at hbrackets ⊢
      split at hbrackets
      · next hpush =>
          obtain ⟨left, right, houtlets, _⟩ := g.push_outlets o hpush
          rw [houtlets] at hn
          have hi : i < 2 := hn
          rw [if_pos hpush]
          obtain rfl | rfl : i = 0 ∨ i = 1 := by omega
          · have hpop : g.bracketOf ⟨o, .accum 0⟩ = some (.pop o) := if_pos hpush
            have hnone : g.brackets calls₁ = [] := hbrackets
            rw [brackets_cons_some hpop, brackets_append, brackets_append, brackets_inspections,
              hnone, List.append_nil, List.nil_append]
            exact ⟨_, hinner, rfl⟩
          · have hopen : g.bracketOf ⟨o, .accum 1⟩ = some (.push o) := if_pos hpush
            obtain ⟨rest, hnested, heq⟩ := hbrackets
            rw [brackets_cons_some hopen, brackets_append, brackets_append, brackets_inspections,
              heq, List.nil_append]
            exact .pair hinner hnested
      · next hpush =>
          rw [if_neg hpush, brackets_cons_none (bracketOf_notPush (Bool.eq_false_iff.mpr hpush)),
            brackets_append, brackets_append, brackets_inspections, List.nil_append]
          exact hinner.append hbrackets

theorem RenderingAll.nested {connections : List Nat} {flags flags' : OutletFlags}
    {calls : List DpdCall} : RenderingAll g connections flags calls flags' →
      PushEnabled g flags → Nested (g.brackets calls) ∧ PushEnabled g flags'
  | @RenderingAll.nil _ _ => by
      intro hflags
      exact ⟨.nil, hflags⟩
  | @RenderingAll.cons _ _ _ _ _ _ _ _ _ hfirst hrest => by
      intro hflags
      obtain ⟨hnested, hflags₁⟩ := hfirst.nested hflags
      obtain ⟨hnested', hflags'⟩ := hrest.nested hflags₁
      rw [brackets_append]
      exact ⟨hnested.append hnested', hflags'⟩
  | @RenderingAll.skip _ _ _ _ _ _ _ hrest => hrest.nested

end

end Brackets

end PureDataPacket
