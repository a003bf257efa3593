/-
# `PureDataPacket.Lib.Elements` — what a routine leaves in each element

A routine that stores every element of its target once leaves in each of them the value
of the step that stores it, whatever the order of the steps.  `Once` says that it does.

Planar images are stored in blocks: two by two elements of a first plane, and one element
of each of two planes behind it that have a quarter of its size.

| | |
| :-- | :-- |
| `Once` | every element is stored once |
| `Once.of_exists` | as many steps as elements, and a step for every element |
| `Once.load_of_subset` | what is in an element afterwards |
| `exists_blockIndex` | every element of the three planes is in a block |
| `once_blocks` | a routine that goes from block to block |
-/
import Mathlib.Algebra.Group.Action.Defs
import Mathlib.Data.List.GetD
import Mathlib.Data.List.Perm.Subperm
import Mathlib.Tactic.Ring
import PureDataPacket.Lib.Sweep

namespace PureDataPacket

/-! ## Elements -/

namespace Format

variable {c : Format} {m : List UInt8} {i j v : Int} {p : Nat}

/-- What is left of a value that is stored and loaded again. -/
def wrap (c : Format) (v : Int) : Int := c.decode (c.encode v)

theorem wrap_u8 (v : Int) : u8.wrap v = v % 2 ^ 8 := by
  show ((UInt8.ofNat (v % 2 ^ 8).toNat).toNat : Int) = v % 2 ^ 8
  rw [UInt8.toNat_ofNat']
  omega

theorem decode_s16 (x y : UInt8) :
    s16.decode [x, y] = Int.bmod (x.toNat + 2 ^ 8 * y.toNat : Nat) (2 ^ 16) := by
  rw [s16]

theorem bytes_s16 {n : Nat} (hn : n < 2 ^ 16) :
    (UInt8.ofNat n).toNat + 2 ^ 8 * (UInt8.ofNat (n / 2 ^ 8)).toNat = n := by
  rw [UInt8.toNat_ofNat', UInt8.toNat_ofNat']
  omega

theorem encode_s16 (v : Int) : s16.encode v =
    [UInt8.ofNat (v % 2 ^ 16).toNat, UInt8.ofNat ((v % 2 ^ 16).toNat / 2 ^ 8)] := rfl

theorem decode_encode_s16 (v : Int) :
    s16.decode (s16.encode v) = Int.bmod (v % 2 ^ 16).toNat (2 ^ 16) := by
  rw [encode_s16, decode_s16, bytes_s16 (by omega)]

theorem wrap_s16 (v : Int) : s16.wrap v = v.bmod (2 ^ 16) := by
  have hnat : ((v % 2 ^ 16).toNat : Int) = v % 2 ^ 16 := Int.toNat_of_nonneg (by omega)
  rw [wrap, decode_encode_s16, hnat]
  exact Int.emod_bmod v (2 ^ 16)

theorem wrap_u8_of_bounds (h0 : 0 ≤ v) (h1 : v < 2 ^ 8) : u8.wrap v = v := by
  rw [wrap_u8]
  exact Int.emod_eq_of_lt h0 h1

theorem wrap_s16_of_bounds (h0 : -2 ^ 15 ≤ v) (h1 : v < 2 ^ 15) : s16.wrap v = v := by
  rw [wrap_s16]
  exact Int.bmod_eq_of_le (by omega) (by omega)

theorem load_of_bytes
    (h : ∀ k < c.size, m[c.size * i.toNat + k]? = (c.encode v)[k]?) : c.load m i = c.wrap v := by
  have hlen : ∀ k, ¬ k < c.size → (chunk c.size i.toNat m)[k]? = (c.encode v)[k]? := by
    intro k hk
    rw [List.getElem?_eq_none, List.getElem?_eq_none]
    · rw [c.length_encode]
      omega
    · rw [length_chunk]
      omega
  unfold load wrap
  congr 1
  refine List.ext_getElem? fun k => ?_
  by_cases hk : k < c.size
  · rw [getElem?_chunk _ hk, h k hk]
  · exact hlen k hk

theorem Occupies.eq (hi : c.Occupies i p) (hj : c.Occupies j p) : i = j := by
  have hpos : (0 : Int) < c.size := by
    by_contra hneg
    have h0 : (c.size : Int) = 0 := by omega
    unfold Occupies at hi
    rw [h0] at hi
    omega
  have hij : i < j + 1 := lt_of_mul_lt_mul_left (lt_of_le_of_lt hi.1 hj.2) (by omega)
  have hji : j < i + 1 := lt_of_mul_lt_mul_left (lt_of_le_of_lt hj.1 hi.2) (by omega)
  omega

end Format

/-! ## Every element once -/

/-- The steps store the elements from 0 to `n`, each of them once. -/
structure Once (c : Format) (n : Nat) (l : List Step) : Prop where
  target : ∀ st ∈ l, st.target = c
  perm : (l.map Step.index).Perm ((List.range n).map fun k : Nat => (k : Int))

section Once

variable {c : Format} {n : Nat} {l : List Step} {src dst out : List UInt8} {st : Step}

theorem Once.of_exists (htarget : ∀ st ∈ l, st.target = c) (hlen : l.length ≤ n)
    (h : ∀ i < n, ∃ st ∈ l, st.index = (i : Int)) : Once c n l where
  target := htarget
  perm := by
    have hnodup : ((List.range n).map fun k : Nat => (k : Int)).Nodup :=
      List.Nodup.map (fun _ _ he => Int.ofNat.inj he) List.nodup_range
    have hsub : ((List.range n).map fun k : Nat => (k : Int)) ⊆ l.map Step.index := by
      intro i hi
      obtain ⟨k, hk, rfl⟩ := List.mem_map.mp hi
      obtain ⟨st, hst, he⟩ := h k (List.mem_range.mp hk)
      exact List.mem_map.mpr ⟨st, hst, he⟩
    refine ((List.subperm_of_subset hnodup hsub).perm_of_length_le ?_).symm
    rwa [List.length_map, List.length_map, List.length_range]

theorem Once.index_bounds (h : Once c n l) (hst : st ∈ l) : 0 ≤ st.index ∧ st.index < n := by
  obtain ⟨k, hk, he⟩ := List.mem_map.mp (h.perm.mem_iff.mp (List.mem_map_of_mem hst))
  have := List.mem_range.mp hk
  omega

/-- The steps that store the same element are one step. -/
theorem Once.eq_of_index (h : Once c n l) {st' : Step} (hst : st ∈ l) (hst' : st' ∈ l)
    (he : st'.index = st.index) : st' = st := by
  have hnodup : (l.map Step.index).Nodup := h.perm.nodup_iff.mpr
    (List.Nodup.map (fun _ _ he => Int.ofNat.inj he) List.nodup_range)
  exact List.inj_on_of_nodup_map hnodup hst' hst he

/-- What is in an element is the value of its step, also for a routine that takes some steps
more than once. -/
theorem Once.load_of_subset {l' : List Step} (h : Once c n l) (hsub : ∀ st ∈ l', st ∈ l)
    (hrun : runSteps src l' dst = some out) (hst : st ∈ l') :
    c.load out st.index = c.wrap (st.value (st.loads.map (st.source.load src))) := by
  have htarget := h.target st (hsub st hst)
  have h0 := (h.index_bounds (hsub st hst)).1
  refine Format.load_of_bytes fun k hk => ?_
  have hocc : st.target.Occupies st.index (c.size * st.index.toNat + k) := by
    rw [htarget, Format.occupies_iff h0]
    omega
  rw [getElem?_runSteps_of_written hst hocc (fun st' hst' ho => ?_) hrun, htarget,
    Nat.add_sub_cancel_left]
  refine h.eq_of_index (hsub st hst) (hsub st' hst') ?_
  rw [htarget] at hocc
  rw [h.target st' (hsub st' hst')] at ho
  exact ho.eq hocc

theorem Once.load (h : Once c n l) (hrun : runSteps src l dst = some out) (hst : st ∈ l) :
    c.load out st.index = c.wrap (st.value (st.loads.map (st.source.load src))) :=
  h.load_of_subset (fun _ hst => hst) hrun hst

end Once

/-! ## Blocks -/

/-- The elements of the block in block row `row` and block column `k`, of `b` block rows and
`a` block columns. -/
def blockIndices (a b row k : Nat) : List Nat :=
  let first := 4 * (a * row) + 2 * k
  [first, first + 1, first + 2 * a, first + 2 * a + 1, 5 * (a * b) + (a * row + k),
    4 * (a * b) + (a * row + k)]

section Blocks

variable {a b : Nat}

theorem add_mul_lt {row k : Nat} (hrow : row < b) (hk : k < a) : a * row + k < a * b := by
  have hle := Nat.mul_le_mul_left a (Nat.succ_le_of_lt hrow)
  rw [Nat.mul_succ] at hle
  omega

theorem exists_mul_add {i : Nat} (hi : i < a * b) : ∃ row < b, ∃ k < a, i = a * row + k := by
  have ha : 0 < a := Nat.pos_of_ne_zero fun h0 => by
    rw [h0, Nat.zero_mul] at hi
    omega
  exact ⟨i / a, Nat.div_lt_of_lt_mul hi, i % a, Nat.mod_lt i ha, (Nat.div_add_mod i a).symm⟩

/-- Where an element of the first plane is in its block. -/
theorem exists_block_first {x y : Nat} (hx : x < 2 * a) (hy : y < 2 * b) : ∃ row < b, ∃ k < a,
    2 * a * y + x ∈ (blockIndices a b row k).take 4 := by
  have hrows : 2 * a * y = 4 * (a * (y / 2)) + 2 * a * (y % 2) := by
    conv_lhs => rw [← Nat.div_add_mod y 2]
    ring
  refine ⟨y / 2, by omega, x / 2, by omega, ?_⟩
  rw [hrows]
  simp only [blockIndices, List.take_succ_cons, List.take_zero, List.mem_cons, List.not_mem_nil,
    or_false]
  rcases Nat.mod_two_eq_zero_or_one y with h | h
  · rw [h]
    omega
  · rw [h]
    omega

theorem exists_blockIndex {i : Nat} (hi : i < 6 * (a * b)) : ∃ row < b, ∃ k < a,
    i ∈ blockIndices a b row k := by
  rcases Nat.lt_or_ge i (4 * (a * b)) with h | h
  · have hplane : 2 * a * (2 * b) = 4 * (a * b) := by ring
    obtain ⟨y, hy, x, hx, rfl⟩ := exists_mul_add (hplane ▸ h)
    obtain ⟨row, hrow, k, hk, hmem⟩ := exists_block_first hx hy
    exact ⟨row, hrow, k, hk, List.mem_of_mem_take hmem⟩
  · rcases Nat.lt_or_ge i (5 * (a * b)) with h' | h'
    · obtain ⟨row, hrow, k, hk, he⟩ := exists_mul_add (show i - 4 * (a * b) < a * b by omega)
      refine ⟨row, hrow, k, hk, ?_⟩
      simp only [blockIndices, List.mem_cons, List.not_mem_nil, or_false]
      omega
    · obtain ⟨row, hrow, k, hk, he⟩ := exists_mul_add (show i - 5 * (a * b) < a * b by omega)
      refine ⟨row, hrow, k, hk, ?_⟩
      simp only [blockIndices, List.mem_cons, List.not_mem_nil, or_false]
      omega

variable {c : Format} {body : Nat → Nat → List Step}

theorem length_stepsFor {n m : Nat} {body : Nat → List Step} (h : ∀ k, (body k).length = m) :
    (stepsFor n body).length = n * m := by
  unfold stepsFor
  rw [List.length_flatMap]
  simp only [h, List.map_const', List.length_range, List.sum_replicate, smul_eq_mul]

theorem once_blocks (htarget : ∀ row k, ∀ st ∈ body row k, st.target = c)
    (hindex : ∀ row k, ((body row k).map Step.index).Perm
      ((blockIndices a b row k).map fun i : Nat => (i : Int))) :
    Once c (6 * (a * b)) (stepsFor b fun row => stepsFor a (body row)) := by
  have hsix : ∀ row k, (body row k).length = 6 := by
    intro row k
    have hlen := (hindex row k).length_eq
    rwa [List.length_map, List.length_map] at hlen
  refine .of_exists (fun st hst => ?_) ?_ fun i hi => ?_
  · obtain ⟨row, _, hst⟩ := mem_stepsFor.mp hst
    obtain ⟨k, _, hst⟩ := mem_stepsFor.mp hst
    exact htarget row k st hst
  · rw [length_stepsFor fun row => length_stepsFor (hsix row)]
    exact Nat.le_of_eq (by ring)
  · obtain ⟨row, hrow, k, hk, hmem⟩ := exists_blockIndex hi
    have hmem' : (i : Int) ∈ (body row k).map Step.index :=
      (hindex row k).mem_iff.mpr (List.mem_map_of_mem hmem)
    obtain ⟨st, hst, he⟩ := List.mem_map.mp hmem'
    exact ⟨st, mem_stepsFor.mpr ⟨row, hrow, mem_stepsFor.mpr ⟨k, hk, hst⟩⟩, he⟩

end Blocks

/-! ## Sample by sample -/

section Samples

variable {source c : Format} {n count : Nat} {l : List Step} {src dst out : List UInt8}
  {f : Int → Int} {x y : Int}

theorem mem_mapSteps {st : Step} :
    st ∈ mapSteps source c count f ↔ ∃ k < count, st = .map source c k k f := by
  simp only [mapSteps, mem_stepsFor, List.mem_singleton]

theorem length_mapSteps : (mapSteps source c count f).length = count := by
  unfold mapSteps
  rw [length_stepsFor (m := 1) fun _ => rfl, Nat.mul_one]

/-- Two copies, of which the second goes on where the first has stopped. -/
theorem once_planar {m : Nat} {g : Int → Int} : Once c (n + m)
    (mapSteps source c n f ++ (mapSteps source c m g).map (.shift n n)) := by
  refine .of_exists (fun st hst => ?_) ?_ fun i hi => ?_
  · rcases List.mem_append.mp hst with hst | hst
    · obtain ⟨k, _, rfl⟩ := mem_mapSteps.mp hst
      rfl
    · obtain ⟨st', hst', rfl⟩ := List.mem_map.mp hst
      obtain ⟨k, _, rfl⟩ := mem_mapSteps.mp hst'
      rfl
  · rw [List.length_append, List.length_map, length_mapSteps, length_mapSteps]
  · rcases Nat.lt_or_ge i n with h | h
    · exact ⟨_, List.mem_append_left _ (mem_mapSteps.mpr ⟨i, h, rfl⟩), rfl⟩
    · refine ⟨_, List.mem_append_right _ (List.mem_map_of_mem
        (mem_mapSteps.mpr ⟨i - n, by omega, rfl⟩)), ?_⟩
      show (n : Int) + (i - n : Nat) = i
      omega

/-- What a copy leaves, if it is part of a routine that stores every element once. -/
theorem Once.load_map (h : Once c n l) (hrun : runSteps src l dst = some out)
    (hsub : ∀ st ∈ mapSteps source c count f, st ∈ l) {k : Nat} (hk : k < count) :
    c.load out k = c.wrap (f (source.load src k)) :=
  h.load hrun (hsub _ (mem_mapSteps.mpr ⟨k, hk, rfl⟩))

theorem Once.load_shift (h : Once c n l) (hrun : runSteps src l dst = some out)
    (hsub : ∀ st ∈ (mapSteps source c count f).map (.shift x y), st ∈ l) {k : Nat}
    (hk : k < count) : c.load out (y + k) = c.wrap (f (source.load src (x + k))) :=
  h.load hrun (hsub _ (List.mem_map_of_mem (mem_mapSteps.mpr ⟨k, hk, rfl⟩)))

end Samples

/-! ## Bytes -/

section Bytes

variable {m m' : List UInt8} {i : Int}

theorem chunk_eq {c i : Nat} (h : c * i + c ≤ m.length) :
    chunk c i m = (List.range c).map fun k => m.getD (c * i + k) 0 := by
  have hlen : (chunk c i m).length = c := by
    rw [length_chunk]
    omega
  refine List.ext_getElem (by rw [hlen, List.length_map, List.length_range]) fun k hk _ => ?_
  have hget := getElem?_chunk (i := i) m (hlen ▸ hk)
  rw [List.getElem?_eq_getElem hk, List.getElem?_eq_getElem (by omega)] at hget
  rw [List.getElem_map, List.getElem_range, List.getD_eq_getElem _ _ (by omega)]
  exact Option.some.inj hget

theorem u8_load (m : List UInt8) (k : Nat) : u8.load m k = (m.getD k 0).toNat := by
  unfold Format.load chunk
  rw [Int.toNat_natCast, show u8.size = 1 from rfl, Nat.one_mul]
  rcases Nat.lt_or_ge k m.length with hk | hk
  · rw [List.drop_eq_getElem_cons hk, List.getD_eq_getElem _ _ hk]
    rfl
  · rw [List.drop_eq_nil_of_le hk, List.getD_eq_default _ _ hk]
    rfl

theorem u8_load_bounds (m : List UInt8) (i : Int) : 0 ≤ u8.load m i ∧ u8.load m i ≤ 255 := by
  have hload : u8.load m i = u8.load m (i.toNat : Nat) := by
    unfold Format.load
    rw [Int.toNat_natCast]
  have hlt := (m.getD i.toNat 0).toNat_lt
  rw [hload, u8_load]
  omega

theorem s16_load {k : Nat} (h : 2 * k + 2 ≤ m.length) : s16.load m k =
    Int.bmod ((m.getD (2 * k) 0).toNat + 2 ^ 8 * (m.getD (2 * k + 1) 0).toNat : Nat) (2 ^ 16) := by
  unfold Format.load
  rw [Int.toNat_natCast, show s16.size = 2 from rfl, chunk_eq h]
  exact Format.decode_s16 _ _

theorem eq_of_load_u8 (hlen : m.length = m'.length)
    (h : ∀ k < m.length, u8.load m k = u8.load m' k) : m = m' := by
  refine List.ext_getElem hlen fun k hk hk' => ?_
  have hload := h k hk
  rw [u8_load, u8_load, List.getD_eq_getElem _ _ hk, List.getD_eq_getElem _ _ hk'] at hload
  exact UInt8.toNat_inj.mp (Int.ofNat.inj hload)

end Bytes

end PureDataPacket
