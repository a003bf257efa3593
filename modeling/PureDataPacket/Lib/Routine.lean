/-
# `PureDataPacket.Lib.Routine` — routines that fill one buffer from another

A routine that reads a source buffer and writes a target buffer is a list of
steps: load some elements, compute a value from them, store it.  Which elements
a step touches does not depend on what is in them, so the list alone answers
two questions about the routine.

| | |
| :-- | :-- |
| `Fits` | no step leaves the buffers: the routine runs to its end |
| `Covers` | every byte of the target is written: its old contents do not matter |

Nothing here knows what the elements mean.  A `Format` says how an integer is
kept in bytes; the two formats at the end are those of `unsigned char` and of a
little-endian `short`.
-/
import Mathlib.Tactic.Linarith
import Mathlib.Tactic.Positivity
import PureDataPacket.Lib.Bytes
import PureDataPacket.Lib.CInt

namespace PureDataPacket

/-! ## Elements -/

/-- How an integer is kept in a fixed number of bytes. -/
structure Format where
  size : Nat
  decode : List UInt8 → Int
  encode : Int → List UInt8
  length_encode : ∀ v, (encode v).length = size

namespace Format

/-- Element `i` lies inside a buffer of `n` bytes. -/
def Within (c : Format) (n : Nat) (i : Int) : Prop := 0 ≤ i ∧ c.size * (i + 1) ≤ n

instance (c : Format) (n : Nat) (i : Int) : Decidable (c.Within n i) :=
  inferInstanceAs (Decidable (_ ∧ _))

/-- Byte `p` is one of those of element `i`. -/
def Occupies (c : Format) (i : Int) (p : Nat) : Prop := c.size * i ≤ p ∧ p < c.size * (i + 1)

/-- `m[i]`. -/
def load (c : Format) (m : List UInt8) (i : Int) : Int := c.decode (chunk c.size i.toNat m)

/-- `m[i] = v`. -/
def store (c : Format) (m : List UInt8) (i v : Int) : List UInt8 :=
  blit m (c.size * i.toNat) (c.encode v)

theorem fits_of_within {c : Format} {n : Nat} {i : Int} (h : c.Within n i) :
    c.size * i.toNat + c.size ≤ n := by
  obtain ⟨hi, hn⟩ := h
  lift i to Nat using hi
  rw [Int.toNat_natCast]
  rw [← Nat.mul_succ]
  exact_mod_cast hn

theorem length_store {c : Format} {m : List UInt8} {i : Int} (v : Int)
    (h : c.Within m.length i) : (c.store m i v).length = m.length := by
  apply length_blit
  rw [c.length_encode]
  exact fits_of_within h

theorem occupies_iff {c : Format} {i : Int} (hi : 0 ≤ i) (p : Nat) :
    c.Occupies i p ↔ c.size * i.toNat ≤ p ∧ p < c.size * i.toNat + c.size := by
  lift i to Nat using hi
  rw [Int.toNat_natCast, ← Nat.mul_succ]
  unfold Occupies
  refine and_congr ?_ ?_
  · exact_mod_cast Iff.rfl
  · exact_mod_cast Iff.rfl

theorem getElem?_store_other {c : Format} {m : List UInt8} {i : Int} (v : Int)
    (h : c.Within m.length i) {p : Nat} (hp : ¬ c.Occupies i p) :
    (c.store m i v)[p]? = m[p]? := by
  have hlen := c.length_encode v
  unfold store
  rw [getElem?_blit (by rw [hlen]; exact fits_of_within h), hlen,
    if_neg fun hin => hp ((occupies_iff h.1 p).mpr hin)]

end Format

/-! ## Steps -/

/-- Load elements of the source, compute, store one element of the target. -/
structure Step where
  source : Format
  target : Format
  loads : List Int
  index : Int
  value : List Int → Int

namespace Step

def Fits (st : Step) (n m : Nat) : Prop :=
  (∀ i ∈ st.loads, st.source.Within n i) ∧ st.target.Within m st.index

instance (st : Step) (n m : Nat) : Decidable (st.Fits n m) :=
  inferInstanceAs (Decidable (_ ∧ _))

def run (src : List UInt8) (st : Step) (dst : List UInt8) : List UInt8 :=
  st.target.store dst st.index (st.value (st.loads.map (st.source.load src)))

/-- `dst[i] = f(src[j])`. -/
def map (source target : Format) (i j : Int) (f : Int → Int) : Step :=
  ⟨source, target, [j], i, fun l => f (l.headD 0)⟩

/-- `dst[i] = v`. -/
def const (target : Format) (i v : Int) : Step := ⟨target, target, [], i, fun _ => v⟩

/-- The step as seen from before the two pointers were advanced. -/
def shift (n m : Int) (st : Step) : Step :=
  { st with loads := st.loads.map (n + ·), index := m + st.index }

@[simp] theorem fits_map {source target : Format} {i j : Int} {f : Int → Int} {n m : Nat} :
    (map source target i j f).Fits n m ↔ source.Within n j ∧ target.Within m i := by
  simp only [Fits, map, List.mem_singleton, forall_eq]

@[simp] theorem fits_const {target : Format} {i v : Int} {n m : Nat} :
    (const target i v).Fits n m ↔ target.Within m i := by
  simp [Fits, const]

theorem length_run {src dst : List UInt8} {st : Step} (h : st.Fits src.length dst.length) :
    (st.run src dst).length = dst.length :=
  Format.length_store _ h.2

end Step

/-- The steps in turn; there is no outcome once one of them leaves the buffers. -/
def runSteps (src : List UInt8) : List Step → List UInt8 → Option (List UInt8)
  | [], dst => some dst
  | st :: l, dst =>
      if st.Fits src.length dst.length then runSteps src l (st.run src dst) else none

/-- No step leaves buffers of these sizes. -/
def Fits (l : List Step) (n m : Nat) : Prop := ∀ st ∈ l, st.Fits n m

/-- Byte `p` of the target is written. -/
def Written (l : List Step) (p : Nat) : Prop := ∃ st ∈ l, st.target.Occupies st.index p

/-- Every byte of a target of this size is written. -/
def Covers (l : List Step) (n : Nat) : Prop := ∀ p < n, Written l p

section Run

variable {src dst out : List UInt8} {l : List Step}

theorem runSteps_cons {st : Step} (h : st.Fits src.length dst.length) :
    runSteps src (st :: l) dst = runSteps src l (st.run src dst) := by
  rw [runSteps, if_pos h]

theorem length_runSteps (h : runSteps src l dst = some out) : out.length = dst.length := by
  induction l generalizing dst with
  | nil =>
      cases h
      rfl
  | cons st l ih =>
      rw [runSteps] at h
      split at h
      · next hst => rw [ih h, Step.length_run hst]
      · cases h

/-- A routine runs to its end exactly if no step leaves the buffers. -/
theorem runSteps_isSome_iff : (∃ out, runSteps src l dst = some out) ↔
    Fits l src.length dst.length := by
  induction l generalizing dst with
  | nil => exact iff_of_true ⟨dst, rfl⟩ (by intro st hst; cases hst)
  | cons st l ih =>
      by_cases hst : st.Fits src.length dst.length
      · rw [runSteps_cons hst, ih, Step.length_run hst]
        unfold Fits
        rw [List.forall_mem_cons, and_iff_right hst]
      · refine iff_of_false ?_ fun h => hst (h st List.mem_cons_self)
        rintro ⟨out, h⟩
        rw [runSteps, if_neg hst] at h
        cases h

theorem runSteps_eq_none_iff : runSteps src l dst = none ↔ ¬ Fits l src.length dst.length := by
  rw [← @runSteps_isSome_iff src dst l]
  cases runSteps src l dst with
  | none => simp
  | some out => simp

theorem getElem?_runSteps_of_not_written {p : Nat} (hp : ¬ Written l p)
    (h : runSteps src l dst = some out) : out[p]? = dst[p]? := by
  induction l generalizing dst with
  | nil =>
      cases h
      rfl
  | cons st l ih =>
      rw [runSteps] at h
      split at h
      · next hst =>
          have hl : ¬ Written l p := fun ⟨st', hmem, ho⟩ => hp ⟨st', List.mem_cons_of_mem _ hmem, ho⟩
          rw [ih hl h]
          exact Format.getElem?_store_other _ hst.2 fun ho => hp ⟨st, List.mem_cons_self, ho⟩
      · cases h

/-- What only one step writes is what this step stores. -/
theorem getElem?_runSteps_of_written {st : Step} {p : Nat} (hst : st ∈ l)
    (hp : st.target.Occupies st.index p)
    (hown : ∀ st' ∈ l, st'.target.Occupies st'.index p → st' = st)
    (h : runSteps src l dst = some out) : out[p]? =
      (st.target.encode (st.value (st.loads.map (st.source.load src))))[p -
        st.target.size * st.index.toNat]? := by
  induction l generalizing dst with
  | nil => cases hst
  | cons st' l ih =>
      rw [runSteps] at h
      split at h
      · next hfits =>
          by_cases hlater : st ∈ l
          · exact ih hlater (fun a ha => hown a (List.mem_cons_of_mem _ ha)) h
          · obtain rfl : st = st' := (List.mem_cons.mp hst).resolve_right hlater
            have hl : ¬ Written l p := fun ⟨a, ha, ho⟩ =>
              hlater (hown a (List.mem_cons_of_mem _ ha) ho ▸ ha)
            have hin := (Format.occupies_iff hfits.2.1 p).mp hp
            rw [getElem?_runSteps_of_not_written hl h]
            unfold Step.run Format.store
            rw [getElem?_blit (by rw [st.target.length_encode]; exact Format.fits_of_within hfits.2),
              st.target.length_encode, if_pos hin]
      · cases h

end Run

/-! ## Sequences and loops -/

@[simp] theorem fits_nil {n m : Nat} : Fits [] n m ↔ True :=
  iff_of_true (by intro st hst; cases hst) trivial

@[simp] theorem fits_cons {st : Step} {l : List Step} {n m : Nat} :
    Fits (st :: l) n m ↔ st.Fits n m ∧ Fits l n m := List.forall_mem_cons

@[simp] theorem written_nil {p : Nat} : Written [] p ↔ False := by
  simp only [Written, List.not_mem_nil, false_and, exists_false]

@[simp] theorem written_cons {st : Step} {l : List Step} {p : Nat} :
    Written (st :: l) p ↔ st.target.Occupies st.index p ∨ Written l p := by
  simp only [Written, List.mem_cons, or_and_right, exists_or, exists_eq_left]

theorem fits_append {l l' : List Step} {n m : Nat} :
    Fits (l ++ l') n m ↔ Fits l n m ∧ Fits l' n m := List.forall_mem_append

theorem fits_map_shift {l : List Step} {x y : Int} {n m : Nat} :
    Fits (l.map (.shift x y)) n m ↔ ∀ st ∈ l,
      (∀ i ∈ st.loads, st.source.Within n (x + i)) ∧ st.target.Within m (y + st.index) := by
  simp only [Fits, List.forall_mem_map, Step.Fits, Step.shift]

theorem written_map_shift {l : List Step} {x y : Int} {p : Nat} :
    Written (l.map (.shift x y)) p ↔ ∃ st ∈ l, st.target.Occupies (y + st.index) p := by
  simp only [Written, List.mem_map, exists_exists_and_eq_and, Step.shift]

/-- `for (k = 0; k < n; k++)`. -/
def stepsFor (n : Nat) (body : Nat → List Step) : List Step := (List.range n).flatMap body

theorem mem_stepsFor {n : Nat} {body : Nat → List Step} {st : Step} :
    st ∈ stepsFor n body ↔ ∃ k < n, st ∈ body k := by
  simp only [stepsFor, List.mem_flatMap, List.mem_range]

theorem fits_stepsFor {n m m' : Nat} {body : Nat → List Step} :
    Fits (stepsFor n body) m m' ↔ ∀ k < n, Fits (body k) m m' := by
  simp only [Fits, mem_stepsFor]
  exact ⟨fun h k hk st hst => h st ⟨k, hk, hst⟩, fun h st ⟨k, hk, hst⟩ => h k hk st hst⟩

/-- How often `for (i = 0; i < bound; i += step)` runs, if it ends. -/
def iterations (bound step : Int) : Nat :=
  if bound ≤ 0 then 0 else ((bound + step - 1) / step).toNat

theorem lt_iterations {bound step : Int} (hs : 0 < step) (k : Nat) :
    k < iterations bound step ↔ step * k < bound := by
  unfold iterations
  split
  · next hb =>
      have hk : 0 ≤ step * k := by positivity
      exact iff_of_false (Nat.not_lt_zero k) (by linarith)
  · rw [Int.lt_toNat, ← Int.add_one_le_iff, Int.le_ediv_iff_mul_le hs]
    constructor
    · intro h
      linarith
    · intro h
      linarith [Int.add_one_le_iff.mpr h]

/-- `for (i = 0; i < bound; i += step)`, for a positive `step`. -/
def stepsUpTo (bound step : Int) (body : Int → List Step) : List Step :=
  stepsFor (iterations bound step) fun k => body (step * k)

theorem fits_stepsUpTo {bound step : Int} {n m : Nat} {body : Int → List Step}
    (hs : 0 < step) : Fits (stepsUpTo bound step body) n m ↔
      ∀ k : Nat, step * k < bound → Fits (body (step * k)) n m := by
  simp only [stepsUpTo, fits_stepsFor, lt_iterations hs]

/-- A loop whose body may be undefined. -/
def stepsForM (n : Nat) (body : Nat → Option (List Step)) : Option (List Step) :=
  match n with
  | 0 => some []
  | n + 1 => do
      let l ← stepsForM n body
      let l' ← body n
      pure (l ++ l')

/-! ## Formats -/

/-- `unsigned char`. -/
def u8 : Format where
  size := 1
  decode
    | [b] => b.toNat
    | _ => 0
  encode v := [UInt8.ofNat (v % 2 ^ 8).toNat]
  length_encode _ := rfl

/-- `short`. -/
def s16 : Format where
  size := 2
  decode
    | [a, b] => Int.bmod (a.toNat + 2 ^ 8 * b.toNat : Nat) (2 ^ 16)
    | _ => 0
  encode v :=
    let n := (v % 2 ^ 16).toNat
    [UInt8.ofNat n, UInt8.ofNat (n / 2 ^ 8)]
  length_encode _ := rfl

@[simp] theorem within_u8 {n : Nat} {i : Int} : u8.Within n i ↔ 0 ≤ i ∧ i < n := by
  show 0 ≤ i ∧ ((1 : Nat) : Int) * (i + 1) ≤ n ↔ _
  omega

@[simp] theorem within_s16 {n : Nat} {i : Int} : s16.Within n i ↔ 0 ≤ i ∧ 2 * i + 2 ≤ n := by
  show 0 ≤ i ∧ ((2 : Nat) : Int) * (i + 1) ≤ n ↔ _
  omega

@[simp] theorem occupies_u8 {i : Int} {p : Nat} : u8.Occupies i p ↔ i = p := by
  show ((1 : Nat) : Int) * i ≤ p ∧ (p : Int) < ((1 : Nat) : Int) * (i + 1) ↔ _
  omega

@[simp] theorem occupies_s16 {i : Int} {p : Nat} :
    s16.Occupies i p ↔ 2 * i ≤ p ∧ p < 2 * i + 2 := by
  show ((2 : Nat) : Int) * i ≤ p ∧ (p : Int) < ((2 : Nat) : Int) * (i + 1) ↔ _
  omega

/-! ## Straight copies -/

/-- `for (i = 0; i < n; i++) dst[i] = f(src[i])`. -/
def mapSteps (source target : Format) (n : Nat) (f : Int → Int) : List Step :=
  stepsFor n fun i => [.map source target i i f]

/-- `memcpy` of `n` bytes. -/
def memcpySteps (n : Nat) : List Step := mapSteps u8 u8 n id

/-- `memset` of `n` bytes from byte `off` on. -/
def memsetSteps (off : Int) (v : Int) (n : Nat) : List Step :=
  stepsFor n fun i => [.const u8 (off + i) v]

section Copies

variable {source target : Format} {n m m' : Nat} {f : Int → Int} {x y : Int}

theorem Format.within_zero_add {c : Format} {i : Nat} : c.Within m i ↔ c.size * (i + 1) ≤ m := by
  unfold Format.Within
  rw [and_iff_right (Int.natCast_nonneg i)]
  exact_mod_cast Iff.rfl

theorem fits_mapSteps : Fits (mapSteps source target n f) m m' ↔
    source.size * n ≤ m ∧ target.size * n ≤ m' := by
  simp only [mapSteps, fits_stepsFor, fits_cons, fits_nil, and_true, Step.fits_map,
    Format.within_zero_add]
  constructor
  · intro h
    cases n with
    | zero => exact ⟨Nat.zero_le _, Nat.zero_le _⟩
    | succ n => exact h n (Nat.lt_succ_self n)
  · rintro ⟨h, h'⟩ k hk
    exact ⟨(Nat.mul_le_mul_left _ hk).trans h, (Nat.mul_le_mul_left _ hk).trans h'⟩

theorem fits_shift_mapSteps : Fits ((mapSteps source target n f).map (.shift x y)) m m' ↔
    ∀ k : Nat, k < n → source.Within m (x + k) ∧ target.Within m' (y + k) := by
  simp only [fits_map_shift, mapSteps, mem_stepsFor, List.mem_singleton]
  constructor
  · intro h k hk
    have hst := h _ ⟨k, hk, rfl⟩
    exact ⟨hst.1 k (List.mem_singleton_self _), hst.2⟩
  · rintro h st ⟨k, hk, rfl⟩
    refine ⟨fun i hi => ?_, (h k hk).2⟩
    rw [List.mem_singleton.mp hi]
    exact (h k hk).1

theorem fits_memsetSteps {v : Int} : Fits (memsetSteps x v n) m m' ↔
    ∀ k : Nat, k < n → 0 ≤ x + k ∧ x + k < m' := by
  simp only [memsetSteps, fits_stepsFor, fits_cons, fits_nil, and_true, Step.fits_const, within_u8]

end Copies

end PureDataPacket
