/-
# `PureDataPacket.Lib.Locality` — steps that keep to a part of a memory

A step is local to a set of places when it changes no other place and looks at no other
place.  Steps that are local to disjoint sets commute.  Where all steps of a list commute,
doing each of them several times is doing the whole list several times.

| | |
| :-- | :-- |
| `Local` | the step `F` reads and writes places in `S` only |
| `foldl` | a loop whose rounds are local |
| `foldl_iterate` | each step `n` times is all steps `n` times |
-/
import Mathlib.Data.Set.Defs
import Mathlib.Logic.Function.Iterate

namespace PureDataPacket

variable {ι κ α σ : Type}

/-- The step `F` reads and writes places in `S` only. -/
structure Local (S : Set ι) (F : (ι → α) → ι → α) : Prop where
  others : ∀ m, ∀ a ∉ S, F m a = m a
  congr : ∀ m m', (∀ a ∈ S, m a = m' a) → ∀ a ∈ S, F m a = F m' a

namespace Local

variable {S T : Set ι} {F G : (ι → α) → ι → α}

theorem comp (hF : Local S F) (hG : Local S G) : Local S (F ∘ G) := by
  refine ⟨fun m a ha => ?_, fun m m' hm a ha => ?_⟩
  · rw [Function.comp_apply, hF.others _ a ha, hG.others m a ha]
  · exact hF.congr _ _ (hG.congr m m' hm) a ha

theorem foldl {F : κ → (ι → α) → ι → α} {l : List κ} (hF : ∀ k ∈ l, Local S (F k)) :
    Local S fun m => l.foldl (fun m k => F k m) m := by
  induction l with
  | nil => exact ⟨fun _ _ _ => rfl, fun _ _ hm => hm⟩
  | cons k l ih =>
      have hrest := ih fun j hj => hF j (List.mem_cons_of_mem k hj)
      exact hrest.comp (hF k List.mem_cons_self)

theorem commute (hF : Local S F) (hG : Local T G) (hapart : ∀ a ∈ S, a ∉ T) :
    Function.Commute F G := by
  intro m
  funext a
  by_cases haS : a ∈ S
  · rw [hG.others _ a (hapart a haS)]
    exact hF.congr _ _ (fun b hb => hG.others m b (hapart b hb)) a haS
  · rw [hF.others _ a haS]
    by_cases haT : a ∈ T
    · exact hG.congr _ _ (fun b hb => (hF.others m b fun hS => hapart b hS hb).symm) a haT
    · rw [hG.others _ a haT, hG.others _ a haT, hF.others m a haS]

end Local

theorem commute_foldl {R : κ → σ → σ} {f : σ → σ} {l : List κ}
    (hf : ∀ k ∈ l, Function.Commute (R k) f) :
    Function.Commute (fun s => l.foldl (fun s k => R k s) s) f := by
  induction l with
  | nil => exact fun _ => rfl
  | cons k l ih =>
      have hrest := ih fun j hj => hf j (List.mem_cons_of_mem k hj)
      exact hrest.comp_left (hf k List.mem_cons_self)

theorem foldl_iterate {R : κ → σ → σ} {l : List κ}
    (hR : ∀ j ∈ l, ∀ k ∈ l, Function.Commute (R j) (R k)) (n : Nat) (s : σ) :
    l.foldl (fun s k => (R k)^[n] s) s = (fun s => l.foldl (fun s k => R k s) s)^[n] s := by
  induction l generalizing s with
  | nil => exact (congrFun (Function.iterate_id n) s).symm
  | cons k l ih =>
      have hrest : Function.Commute (fun s => l.foldl (fun s k => R k s) s) (R k) :=
        commute_foldl fun j hj => hR j (List.mem_cons_of_mem k hj) k List.mem_cons_self
      have hall := ih (fun i hi j hj =>
        hR i (List.mem_cons_of_mem k hi) j (List.mem_cons_of_mem k hj)) ((R k)^[n] s)
      calc (k :: l).foldl (fun s k => (R k)^[n] s) s
          = (fun s => l.foldl (fun s k => R k s) s)^[n] ((R k)^[n] s) := hall
        _ = ((fun s => l.foldl (fun s k => R k s) s) ∘ R k)^[n] s := by
            rw [hrest.comp_iterate, Function.comp_apply]

end PureDataPacket
