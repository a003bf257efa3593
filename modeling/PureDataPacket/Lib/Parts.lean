/-
# `PureDataPacket.Lib.Parts` — routines that fill their target part by part

A routine is often a sequence of others, behind advanced pointers and each with its own
part of the target.  What one of them leaves in its part is what is there in the end, if
those after it keep to theirs.

Two loops that run row by row are at the end: one that stores an element for each block of
2x2, and one that stores the four elements of a block.
-/
import PureDataPacket.Lib.Fill

namespace PureDataPacket

/-! ## Parts -/

section Parts

variable {c : Format} {n : Nat} {l l' : List Step} {src dst m m' out : List UInt8} {st : Step}
  {i x y : Int}

theorem exists_of_append (h : runSteps src (l ++ l') dst = some out) :
    ∃ m, runSteps src l dst = some m ∧ runSteps src l' m = some out := by
  rw [runSteps_append] at h
  exact Option.bind_eq_some_iff.mp h

theorem Format.load_congr (hi : 0 ≤ i) (h : ∀ p, c.Occupies i p → m[p]? = m'[p]?) :
    c.load m i = c.load m' i := by
  unfold Format.load
  congr 1
  refine List.ext_getElem? fun k => ?_
  by_cases hk : k < c.size
  · rw [getElem?_chunk _ hk, getElem?_chunk _ hk]
    refine h _ ((Format.occupies_iff hi _).mpr ?_)
    omega
  · rw [List.getElem?_eq_none (by rw [length_chunk]; omega),
      List.getElem?_eq_none (by rw [length_chunk]; omega)]

theorem load_of_not_written (h : runSteps src l m = some out) (hi : 0 ≤ i)
    (hno : ∀ p, c.Occupies i p → ¬ Written l p) : c.load out i = c.load m i :=
  Format.load_congr hi fun p hp => getElem?_runSteps_of_not_written (hno p hp) h

/-- What a routine that stores every element once leaves behind advanced pointers. -/
theorem Once.load_advanced (h : Once c n l) (hy : 0 ≤ y)
    (hrun : runSteps src (l.map (.shift x y)) dst = some out) (hst : st ∈ l) :
    c.load out (y + st.index) =
      c.wrap (st.value (st.loads.map fun j => st.source.load src (x + j))) := by
  have htarget := h.target st hst
  have h0 := (h.index_bounds hst).1
  have hmem : st.shift x y ∈ l.map (.shift x y) := List.mem_map_of_mem hst
  refine Format.load_of_bytes fun k hk => ?_
  have hocc : c.Occupies (y + st.index) (c.size * (y + st.index).toNat + k) := by
    rw [Format.occupies_iff (by omega)]
    omega
  have hocc' : (st.shift x y).target.Occupies (st.shift x y).index
      (c.size * (y + st.index).toNat + k) := by
    show st.target.Occupies (y + st.index) _
    rwa [htarget]
  rw [getElem?_runSteps_of_written hmem hocc' (fun st' hst' ho => ?_) hrun]
  · show (st.target.encode (st.value ((st.loads.map (x + ·)).map (st.source.load src))))[_ -
      st.target.size * (y + st.index).toNat]? = _
    rw [htarget, Nat.add_sub_cancel_left, List.map_map]
    rfl
  · obtain ⟨st'', hst'', rfl⟩ := List.mem_map.mp hst'
    have ho' : c.Occupies (y + st''.index) (c.size * (y + st.index).toNat + k) := by
      have htarget' := h.target st'' hst''
      unfold Step.shift at ho
      rwa [htarget'] at ho
    have hsame := ho'.eq hocc
    rw [h.eq_of_index hst hst'' (by omega)]

theorem Once.written_advanced (h : Once c n l) {p : Nat} (hp : Written (l.map (.shift x y)) p) :
    c.size * y ≤ p ∧ p < c.size * (y + n) := by
  obtain ⟨st, hst, ho⟩ := written_map_shift.mp hp
  obtain ⟨h0, h1⟩ := h.index_bounds hst
  rw [h.target st hst] at ho
  obtain ⟨hlo, hhi⟩ := ho
  have hsize : (0 : Int) ≤ c.size := Int.natCast_nonneg _
  have h2 : (c.size : Int) * y ≤ c.size * (y + st.index) :=
    Int.mul_le_mul_of_nonneg_left (by omega) hsize
  have h3 : (c.size : Int) * (y + st.index + 1) ≤ c.size * (y + n) :=
    Int.mul_le_mul_of_nonneg_left (by omega) hsize
  omega

theorem once_mapSteps {source : Format} {f : Int → Int} : Once c n (mapSteps source c n f) := by
  refine .of_exists (fun st hst => ?_) (Nat.le_of_eq length_mapSteps) fun i hi => ?_
  · obtain ⟨k, _, rfl⟩ := mem_mapSteps.mp hst
    rfl
  · exact ⟨_, mem_mapSteps.mpr ⟨i, hi, rfl⟩, rfl⟩

theorem load_memcpy {k : Nat} (hk : k < n) (h : runSteps src (memcpySteps n) dst = some out) :
    u8.load out k = u8.load src k := by
  have hload := once_mapSteps.load_map h (fun _ hst => hst) hk
  rw [id, Format.wrap_u8_of_bounds (u8_load_bounds src k).1
    (by have := (u8_load_bounds src k).2; omega)] at hload
  exact hload

end Parts

/-! ## Rows -/

section Rows

variable {c : Format} {a b : Nat} {body : Nat → Nat → List Step}

theorem once_rows (htarget : ∀ row k, ∀ st ∈ body row k, st.target = c)
    (hindex : ∀ row k, (body row k).map Step.index = [((a * row + k : Nat) : Int)]) :
    Once c (a * b) (stepsFor b fun row => stepsFor a (body row)) := by
  have hone : ∀ row k, (body row k).length = 1 := by
    intro row k
    have hlen := congrArg List.length (hindex row k)
    rwa [List.length_map] at hlen
  refine .of_exists (fun st hst => ?_) ?_ fun i hi => ?_
  · obtain ⟨row, _, hst⟩ := mem_stepsFor.mp hst
    obtain ⟨k, _, hst⟩ := mem_stepsFor.mp hst
    exact htarget row k st hst
  · rw [length_stepsFor fun row => length_stepsFor (hone row)]
    exact Nat.le_of_eq (by ring)
  · obtain ⟨row, hrow, k, hk, rfl⟩ := exists_mul_add hi
    have hmem : ((a * row + k : Nat) : Int) ∈ (body row k).map Step.index := by
      rw [hindex]
      exact List.mem_singleton_self _
    obtain ⟨st, hst, he⟩ := List.mem_map.mp hmem
    exact ⟨st, mem_stepsFor.mpr ⟨row, hrow, mem_stepsFor.mpr ⟨k, hk, hst⟩⟩, he⟩

theorem once_quads (htarget : ∀ row k, ∀ st ∈ body row k, st.target = c)
    (hindex : ∀ row k, (body row k).map Step.index =
      ((blockIndices a b row k).take 4).map fun i : Nat => (i : Int)) :
    Once c (4 * (a * b)) (stepsFor b fun row => stepsFor a (body row)) := by
  have hfour : ∀ row k, (body row k).length = 4 := by
    intro row k
    have hlen := congrArg List.length (hindex row k)
    rwa [List.length_map, List.length_map] at hlen
  refine .of_exists (fun st hst => ?_) ?_ fun i hi => ?_
  · obtain ⟨row, _, hst⟩ := mem_stepsFor.mp hst
    obtain ⟨k, _, hst⟩ := mem_stepsFor.mp hst
    exact htarget row k st hst
  · rw [length_stepsFor fun row => length_stepsFor (hfour row)]
    exact Nat.le_of_eq (by ring)
  · have hplane : 2 * a * (2 * b) = 4 * (a * b) := by ring
    obtain ⟨y, hy, x, hx, rfl⟩ := exists_mul_add (hplane ▸ hi)
    obtain ⟨row, hrow, k, hk, hmem⟩ := exists_block_first hx hy
    have hmem' : ((2 * a * y + x : Nat) : Int) ∈ (body row k).map Step.index := by
      rw [hindex]
      exact List.mem_map_of_mem hmem
    obtain ⟨st, hst, he⟩ := List.mem_map.mp hmem'
    exact ⟨st, mem_stepsFor.mpr ⟨row, hrow, mem_stepsFor.mpr ⟨k, hk, hst⟩⟩, he⟩

end Rows

end PureDataPacket
