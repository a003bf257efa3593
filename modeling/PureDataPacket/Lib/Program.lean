/-
# `PureDataPacket.Lib.Program` — programs over atomic actions

A caller of a locked module is a tree of atomic actions: perform one, branch
on its answer, go on.  This file has the trees, three ways to run one over a
state, and the rules that carry an invariant of the single action through a
whole program.

| | |
| :-- | :-- |
| `Prog.run` | the final answer and state, or the fault that stopped it |
| `Prog.trace` | the actions performed, each with its answer |
| `Prog.wp` | every action meets a guard, and the end meets a postcondition |

`wp` is partial: a program that stops with a fault has no end to speak of, so
only the guards on its actions remain.  Nothing here knows what the actions
are; `exec` interprets them.
-/
import Mathlib.Logic.Basic

namespace PureDataPacket

/-- A program that performs actions `o : O`, branches on their answers in
`R o`, and ends with an `α` or with a fault in `E`. -/
inductive Prog (O : Type) (R : O → Type) (E α : Type) : Type
  | done (a : α)
  | crash (e : E)
  | act (o : O) (k : R o → Prog O R E α)

namespace Prog

variable {O : Type} {R : O → Type} {E α β S T : Type}

/-- Sequencing: graft `f` on every normal end. -/
def bind : Prog O R E α → (α → Prog O R E β) → Prog O R E β
  | done a, f => f a
  | crash e, _ => crash e
  | act o k, f => act o (fun r => (k r).bind f)

instance : Monad (Prog O R E) where
  pure := done
  bind := bind

/-- The program that performs one action and returns its answer. -/
def call (o : O) : Prog O R E (R o) := act o done

@[simp] theorem pure_eq (a : α) : (pure a : Prog O R E α) = done a := rfl

@[simp] theorem bind_eq (p : Prog O R E α) (f : α → Prog O R E β) :
    p >>= f = p.bind f := rfl

@[simp] theorem done_bind (a : α) (f : α → Prog O R E β) :
    (done a : Prog O R E α).bind f = f a := rfl

@[simp] theorem crash_bind (e : E) (f : α → Prog O R E β) :
    (crash e : Prog O R E α).bind f = crash e := rfl

@[simp] theorem act_bind (o : O) (k : R o → Prog O R E α) (f : α → Prog O R E β) :
    (act o k).bind f = act o (fun r => (k r).bind f) := rfl

@[simp] theorem call_bind (o : O) (f : R o → Prog O R E β) :
    (call o : Prog O R E (R o)).bind f = act o f := rfl

/-! ## Running -/

section Run

variable (exec : ∀ o : O, S → Except E (R o × S))

/-- Run to the end from `s`. -/
def run : Prog O R E α → S → Except E (α × S)
  | done a, s => .ok (a, s)
  | crash e, _ => .error e
  | act o k, s =>
      match exec o s with
      | .ok (r, s') => (k r).run s'
      | .error e => .error e

/-- The actions performed from `s`, each with its answer.  An action that
faults has no answer and ends the trace. -/
def trace : Prog O R E α → S → List ((o : O) × R o)
  | done _, _ => []
  | crash _, _ => []
  | act o k, s =>
      match exec o s with
      | .ok (r, s') => ⟨o, r⟩ :: (k r).trace s'
      | .error _ => []

/-- Every action performed from `s` meets the guard `C` in the state it is
performed in, and a normal end meets `Q`. -/
def wp (C : S → O → Prop) : Prog O R E α → (α → S → Prop) → S → Prop
  | done a, Q, s => Q a s
  | crash _, _, _ => True
  | act o k, Q, s => C s o ∧ ∀ r s', exec o s = .ok (r, s') → (k r).wp C Q s'

def Within (C : S → O → Prop) (p : Prog O R E α) (s : S) : Prop :=
  p.wp exec C (fun _ _ => True) s

end Run

variable {exec : ∀ o : O, S → Except E (R o × S)} {C D : S → O → Prop}

@[simp] theorem run_done (a : α) (s : S) :
    (done a : Prog O R E α).run exec s = .ok (a, s) := rfl

@[simp] theorem run_crash (e : E) (s : S) :
    (crash e : Prog O R E α).run exec s = .error e := rfl

theorem run_act (o : O) (k : R o → Prog O R E α) (s : S) :
    (act o k).run exec s =
      match exec o s with
      | .ok (r, s') => (k r).run exec s'
      | .error e => .error e := by
  rw [run]

theorem run_act_ok {o : O} {k : R o → Prog O R E α} {s s' : S} {r : R o}
    (h : exec o s = .ok (r, s')) : (act o k).run exec s = (k r).run exec s' := by
  simp only [run_act, h]

theorem run_act_eq_ok {o : O} {k : R o → Prog O R E α} {s t : S} {a : α} :
    (act o k).run exec s = .ok (a, t) ↔
      ∃ r s', exec o s = .ok (r, s') ∧ (k r).run exec s' = .ok (a, t) := by
  constructor
  · intro h
    rw [run_act] at h
    split at h
    · next r s' he => exact ⟨r, s', he, h⟩
    · cases h
  · rintro ⟨r, s', he, h⟩
    rw [run_act_ok he, h]

/-- A sequence is run by running its halves in turn. -/
theorem run_bind (p : Prog O R E α) (f : α → Prog O R E β) (s : S) :
    (p.bind f).run exec s =
      match p.run exec s with
      | .ok (a, s') => (f a).run exec s'
      | .error e => .error e := by
  induction p generalizing s with
  | done a => rfl
  | crash e => rfl
  | act o k ih =>
      simp only [act_bind, run_act]
      cases exec o s with
      | error e => rfl
      | ok x => exact ih x.1 x.2

theorem run_bind_ok {p : Prog O R E α} {f : α → Prog O R E β} {s s' : S} {a : α}
    (h : p.run exec s = .ok (a, s')) : (p.bind f).run exec s = (f a).run exec s' := by
  rw [run_bind, h]

theorem run_bind_eq_ok {p : Prog O R E α} {f : α → Prog O R E β} {s t : S} {b : β} :
    (p.bind f).run exec s = .ok (b, t) ↔
      ∃ a s', p.run exec s = .ok (a, s') ∧ (f a).run exec s' = .ok (b, t) := by
  constructor
  · intro h
    rw [run_bind] at h
    split at h
    · next a s' he => exact ⟨a, s', he, h⟩
    · cases h
  · rintro ⟨a, s', he, h⟩
    rw [run_bind_ok he, h]

/-! ## Traces -/

theorem trace_act_ok {o : O} {k : R o → Prog O R E α} {s s' : S} {r : R o}
    (h : exec o s = .ok (r, s')) :
    (act o k).trace exec s = ⟨o, r⟩ :: (k r).trace exec s' := by
  rw [trace, h]

/-- If a run ends, its result, its trace and its last state meet `Q`. -/
def Logs (exec : ∀ o : O, S → Except E (R o × S)) : Prog O R E α →
    (α → List ((o : O) × R o) → S → Prop) → S → Prop
  | done a, Q, s => Q a [] s
  | crash _, _, _ => True
  | act o k, Q, s =>
      ∀ r s', exec o s = .ok (r, s') → (k r).Logs exec (fun a l t => Q a (⟨o, r⟩ :: l) t) s'

theorem logs_mono {p : Prog O R E α} {Q Q' : α → List ((o : O) × R o) → S → Prop}
    (hQ : ∀ a l t, Q a l t → Q' a l t) : ∀ {s : S}, p.Logs exec Q s → p.Logs exec Q' s := by
  induction p generalizing Q Q' with
  | done a => exact fun h => hQ _ _ _ h
  | crash e => exact id
  | act o k ih => exact fun h r s' he => ih r (fun a l t => hQ a (⟨o, r⟩ :: l) t) (h r s' he)

theorem logs_bind {p : Prog O R E α} {f : α → Prog O R E β}
    {Q : β → List ((o : O) × R o) → S → Prop} {s : S}
    (h : p.Logs exec (fun a l t => (f a).Logs exec (fun b l' u => Q b (l ++ l') u) t) s) :
    (p.bind f).Logs exec Q s := by
  induction p generalizing s Q with
  | done a => exact h
  | crash e => exact h
  | act o k ih => exact fun r s' he => ih r (h r s' he)

theorem trace_of_logs {p : Prog O R E α} {Q : α → List ((o : O) × R o) → S → Prop} {s t : S}
    {a : α} (h : p.Logs exec Q s) (hr : p.run exec s = .ok (a, t)) :
    Q a (p.trace exec s) t := by
  induction p generalizing s Q with
  | done b =>
      cases hr
      exact h
  | crash e => cases hr
  | act o k ih =>
      obtain ⟨r, s', he, hk⟩ := run_act_eq_ok.mp hr
      rw [trace_act_ok he]
      exact ih r (h r s' he) hk

/-! ## Guards and postconditions -/

@[simp] theorem wp_done (a : α) (Q : α → S → Prop) (s : S) :
    (done a : Prog O R E α).wp exec C Q s ↔ Q a s := Iff.rfl

@[simp] theorem wp_crash (e : E) (Q : α → S → Prop) (s : S) :
    (crash e : Prog O R E α).wp exec C Q s ↔ True := Iff.rfl

theorem wp_act (o : O) (k : R o → Prog O R E α) (Q : α → S → Prop) (s : S) :
    (act o k).wp exec C Q s ↔
      C s o ∧ ∀ r s', exec o s = .ok (r, s') → (k r).wp exec C Q s' := Iff.rfl

theorem wp_bind (p : Prog O R E α) (f : α → Prog O R E β) (Q : β → S → Prop) (s : S) :
    (p.bind f).wp exec C Q s ↔ p.wp exec C (fun a t => (f a).wp exec C Q t) s := by
  induction p generalizing s with
  | done a => rfl
  | crash e => rfl
  | act o k ih =>
      simp only [act_bind, wp_act, ih]

/-- The rule of consequence, for the guard and the postcondition at once. -/
theorem wp_mono {p : Prog O R E α} {Q Q' : α → S → Prop}
    (hC : ∀ s o, C s o → D s o) (hQ : ∀ a s, Q a s → Q' a s) :
    ∀ {s : S}, p.wp exec C Q s → p.wp exec D Q' s := by
  induction p with
  | done a => exact fun h => hQ _ _ h
  | crash e => exact fun _ => trivial
  | act o k ih => exact fun h => ⟨hC _ _ h.1, fun r s' he => ih r (h.2 r s' he)⟩

/-- What `wp` promises of a run that ends. -/
theorem post_of_wp {p : Prog O R E α} {Q : α → S → Prop} {s t : S} {a : α}
    (h : p.wp exec C Q s) (hr : p.run exec s = .ok (a, t)) : Q a t := by
  induction p generalizing s with
  | done b =>
      cases hr
      exact h
  | crash e => cases hr
  | act o k ih =>
      obtain ⟨r, s', he, hk⟩ := run_act_eq_ok.mp hr
      exact ih r (h.2 r s' he) hk

/-- The invariant rule: what every guarded action preserves, a guarded
program preserves. -/
theorem wp_inv {I : S → Prop} {p : Prog O R E α} {Q : α → S → Prop}
    (step : ∀ s o r s', I s → C s o → exec o s = .ok (r, s') → I s') :
    ∀ {s : S}, I s → p.wp exec C Q s → p.wp exec C (fun a t => Q a t ∧ I t) s := by
  induction p with
  | done a => exact fun hI hQ => ⟨hQ, hI⟩
  | crash e => exact fun _ _ => trivial
  | act o k ih =>
      exact fun hI h => ⟨h.1, fun r s' he => ih r (step _ _ _ _ hI h.1 he) (h.2 r s' he)⟩

theorem run_inv {I : S → Prop} {p : Prog O R E α} {s t : S} {a : α}
    (step : ∀ s o r s', I s → C s o → exec o s = .ok (r, s') → I s')
    (hI : I s) (hC : p.Within exec C s) (hr : p.run exec s = .ok (a, t)) : I t :=
  (post_of_wp (wp_inv step hI hC) hr).2

theorem within_of_wp {p : Prog O R E α} {Q : α → S → Prop} {s : S}
    (h : p.wp exec C Q s) : p.Within exec C s :=
  wp_mono (fun _ _ => id) (fun _ _ _ => trivial) h

/-! ## Faults that matter

`wp` has nothing to say about a run that faults.  `Ends` tells the faults that
may stop a run from those that must not occur. -/

/-- A run of `p` ends in `Q`, or stops with a fault that `F` tolerates. -/
def Ends (exec : ∀ o : O, S → Except E (R o × S)) (F : E → Prop) (p : Prog O R E α)
    (Q : α → S → Prop) (s : S) : Prop :=
  match p.run exec s with
  | .ok (a, t) => Q a t
  | .error e => F e

section Ends

variable {F : E → Prop}

theorem Ends.ok {p : Prog O R E α} {Q : α → S → Prop} {s t : S} {a : α} (h : p.Ends exec F Q s)
    (hr : p.run exec s = .ok (a, t)) : Q a t := by
  unfold Ends at h
  rwa [hr] at h

theorem Ends.error {p : Prog O R E α} {Q : α → S → Prop} {s : S} {e : E} (h : p.Ends exec F Q s)
    (hr : p.run exec s = .error e) : F e := by
  unfold Ends at h
  rwa [hr] at h

theorem ends_done {a : α} {Q : α → S → Prop} {s : S} (h : Q a s) :
    (done a : Prog O R E α).Ends exec F Q s := h

theorem ends_crash {e : E} {Q : α → S → Prop} {s : S} (h : F e) :
    (crash e : Prog O R E α).Ends exec F Q s := h

theorem ends_act {o : O} {k : R o → Prog O R E α} {Q : α → S → Prop} {s : S}
    (he : ∀ e, exec o s = .error e → F e)
    (hk : ∀ r s', exec o s = .ok (r, s') → (k r).Ends exec F Q s') :
    (act o k).Ends exec F Q s := by
  unfold Ends
  rw [run_act]
  cases h : exec o s with
  | error e => exact he e h
  | ok x => exact hk x.1 x.2 h

theorem ends_mono {p : Prog O R E α} {Q Q' : α → S → Prop} {s : S} (h : p.Ends exec F Q s)
    (hQ : ∀ a t, Q a t → Q' a t) : p.Ends exec F Q' s := by
  unfold Ends at h ⊢
  cases hp : p.run exec s with
  | error e => simpa only [hp] using h
  | ok x =>
      simp only [hp] at h
      exact hQ _ _ h

theorem ends_bind {p : Prog O R E α} {f : α → Prog O R E β} {Q : α → S → Prop}
    {Q' : β → S → Prop} {s : S} (h : p.Ends exec F Q s)
    (hf : ∀ a t, Q a t → (f a).Ends exec F Q' t) : (p.bind f).Ends exec F Q' s := by
  unfold Ends at h ⊢
  rw [run_bind]
  cases hp : p.run exec s with
  | error e => simpa only [hp] using h
  | ok x =>
      simp only [hp] at h
      exact hf _ _ h

end Ends

/-! ## An environment that answers as it likes

Here no state explains the answers.  All that is known of them is `A`; what the
program then asks for is `C`. -/

/-- As long as the answers meet `A`, every action meets `C`; a normal end meets
`Q`. -/
def Obeys (C : O → Prop) (A : ∀ o, R o → Prop) : Prog O R E α → (α → Prop) → Prop
  | done a, Q => Q a
  | crash _, _ => True
  | act o k, Q => C o ∧ ∀ r, A o r → (k r).Obeys C A Q

section Obeys

variable {C : O → Prop} {A : ∀ o, R o → Prop}

theorem obeys_bind {p : Prog O R E α} {f : α → Prog O R E β} {Q : α → Prop} {Q' : β → Prop}
    (h : p.Obeys C A Q) (hf : ∀ a, Q a → (f a).Obeys C A Q') : (p.bind f).Obeys C A Q' := by
  induction p with
  | done a => exact hf a h
  | crash e => trivial
  | act o k ih => exact ⟨h.1, fun r hr => ih r (h.2 r hr)⟩

end Obeys

/-! ## Two machines

`view` reads the smaller state out of the larger.  When every action commutes
with it, so does every program: ghost state changes no answer. -/

section View

variable {exec' : ∀ o : O, T → Except E (R o × T)} {view : S → T}

end View

end Prog

end PureDataPacket
