/-
# `PureDataPacket.Lib.Fill` — routines that fill a buffer from its start to its end

A routine that stores one element after the other leaves a copy of all their bytes.  So two
routines that store in pieces of different sizes do the same if the pieces have the same bytes.
-/
import PureDataPacket.Lib.Elements

namespace PureDataPacket

/-! ## One copy after the other -/

section Blit

variable {α : Type} {m l l' : List α} {off : Nat}

theorem blit_nil : blit m off [] = m := by
  unfold blit
  rw [List.append_nil, List.length_nil, Nat.add_zero, List.take_append_drop]

theorem blit_append (h : off + l.length + l'.length ≤ m.length) :
    blit (blit m off l) (off + l.length) l' = blit m off (l ++ l') := by
  have hlen : (blit m off l).length = m.length := length_blit (by omega)
  refine List.ext_getElem? fun i => ?_
  rw [getElem?_blit (by omega), getElem?_blit (by omega),
    getElem?_blit (by rw [List.length_append]; omega), List.length_append]
  rcases Nat.lt_or_ge i (off + l.length) with hi | hi
  · rw [if_neg (by omega)]
    by_cases hoff : off ≤ i
    · rw [if_pos ⟨hoff, hi⟩, if_pos (by omega), List.getElem?_append_left (by omega)]
    · rw [if_neg (by omega), if_neg (by omega)]
  · by_cases hend : i < off + l.length + l'.length
    · rw [if_pos ⟨hi, hend⟩, if_pos (by omega), List.getElem?_append_right (by omega),
        Nat.sub_sub]
    · rw [if_neg (by omega), if_neg (by omega), if_neg (by omega)]

theorem flatMap_range_mul (c n : Nat) (g : Nat → List α) : (List.range (c * n)).flatMap g =
    (List.range n).flatMap fun i => (List.range c).flatMap fun k => g (c * i + k) := by
  induction n with
  | zero => rfl
  | succ n ih =>
      rw [Nat.mul_succ, List.range_add, List.flatMap_append, ih, List.range_succ,
        List.flatMap_append, List.flatMap_map]
      simp only [List.flatMap_cons, List.flatMap_nil, List.append_nil]

end Blit

/-! ## Routines -/

section Routines

variable {source target : Format} {n x y : Nat} {f : Int → Int} {l l' : List Step}
  {src dst : List UInt8}

theorem runSteps_append :
    runSteps src (l ++ l') dst = (runSteps src l dst).bind (runSteps src l') := by
  induction l generalizing dst with
  | nil => rfl
  | cons st l ih =>
      rw [List.cons_append, runSteps, runSteps]
      split
      · exact ih
      · rfl

theorem Step.shift_zero (st : Step) : st.shift 0 0 = st := by
  have hzero : (fun i : Int => 0 + i) = id := funext Int.zero_add
  unfold Step.shift
  rw [hzero, List.map_id, Int.zero_add]

theorem map_shift_zero (l : List Step) : l.map (.shift 0 0) = l := by
  have hid : Step.shift 0 0 = id := funext Step.shift_zero
  rw [hid, List.map_id]

/-- The bytes of `n` elements that are computed from those at `x` and after it. -/
def mapped (source target : Format) (n x : Nat) (f : Int → Int) (src : List UInt8) : List UInt8 :=
  (List.range n).flatMap fun k => target.encode (f (source.load src (x + k : Nat)))

theorem length_mapped : (mapped source target n x f src).length = target.size * n := by
  unfold mapped
  rw [List.length_flatMap]
  simp only [target.length_encode, List.map_const', List.length_range, List.sum_replicate,
    smul_eq_mul]
  exact Nat.mul_comm _ _

theorem mapped_succ : mapped source target (n + 1) x f src =
    mapped source target n x f src ++ target.encode (f (source.load src (x + n : Nat))) := by
  unfold mapped
  rw [List.range_succ, List.flatMap_append, List.flatMap_singleton]

theorem runSteps_mapSteps (hsrc : source.size * (x + n) ≤ src.length)
    (hdst : target.size * (y + n) ≤ dst.length) :
    runSteps src ((mapSteps source target n f).map (.shift x y)) dst =
      some (blit dst (target.size * y) (mapped source target n x f src)) := by
  induction n with
  | zero =>
      rw [show mapped source target 0 x f src = [] from rfl, blit_nil]
      rfl
  | succ n ih =>
      rw [← Nat.add_assoc, Nat.mul_succ] at hsrc hdst
      have hlen := @length_mapped source target n x f src
      have hlenb : (blit dst (target.size * y) (mapped source target n x f src)).length =
          dst.length := by
        refine length_blit ?_
        rw [hlen, ← Nat.mul_add]
        omega
      have hfits : ((Step.map source target n n f).shift x y).Fits src.length
          (blit dst (target.size * y) (mapped source target n x f src)).length := by
        have hn : ∀ z : Nat, (z : Int) + n = (z + n : Nat) := fun z => (Nat.cast_add z n).symm
        rw [hlenb]
        constructor
        · show ∀ i ∈ [(x + n : Int)], source.Within src.length i
          rw [List.forall_mem_singleton, hn, Format.within_zero_add]
          exact_mod_cast hsrc
        · show target.Within dst.length (y + n)
          rw [hn, Format.within_zero_add]
          exact_mod_cast hdst
      have hsteps : (mapSteps source target (n + 1) f).map (.shift x y) =
          (mapSteps source target n f).map (.shift x y) ++
            [(Step.map source target n n f).shift x y] := by
        unfold mapSteps stepsFor
        rw [List.range_succ, List.flatMap_append, List.map_append]
        rfl
      rw [hsteps, runSteps_append, ih (by omega) (by omega), Option.bind_some, runSteps_cons hfits,
        mapped_succ, ← blit_append (by rw [hlen, target.length_encode, ← Nat.mul_add]; omega)]
      have hindex : ((y : Int) + n).toNat = y + n := by omega
      unfold Step.run Format.store
      rw [hlen, ← Nat.mul_add, show (((Step.map source target n n f).shift x y).index).toNat = y + n
        from hindex]
      rfl

end Routines

end PureDataPacket
