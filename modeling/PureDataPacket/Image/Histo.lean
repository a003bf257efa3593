/-
# `PureDataPacket.Image.Histo` — the brightest pixels of an image

`pdp_histo` counts the pixels in the bins of a histogram, looks from the brightest bin on for as
many pixels as are wanted, and takes a sample of the pixels from there on: they are put into a
table at random places, and the first of them are taken.

A loop without an end is a lack of fuel, and there is no result outside of the histogram, the
table or the image.  `ri & mask` is the remainder, also when `ri` wraps around.  What is made of the
sample as a matrix is left out: it is floating point.
-/
import Mathlib.Data.List.GetD
import PureDataPacket.Image.Imageproc
import PureDataPacket.Lib.Probing

namespace PureDataPacket

/-! ## The routines -/

/-- The loop of `round_up_2log`. -/
def log2Loop : (fuel : Nat) → (i : Int) → (l : Nat) → Option Nat
  | 0, _, _ => none
  | fuel + 1, i, l => if i = 0 then some l else log2Loop fuel (i / 2) (l + 1)

/-- `round_up_2log`. -/
def roundUp2log (fuel : Nat) (i : Int) : Option Nat :=
  (log2Loop fuel (i - 1) 0).map fun l => if l < 16 then l else 15

/-- What `t_pdp_histo` has for `get_brightest`. -/
structure Histo where
  logN : Nat
  sampleSize : Nat

namespace Histo

variable (x : Histo)

def bin (d : S16) : Nat :=
  let index := d.toInt / 2 ^ (15 - x.logN)
  if index < 0 then 0 else index.toNat

/-- The loop over the pixels of `_pdp_histo_perform`. -/
def build : List S16 → List Nat → Option (List Nat)
  | [], histo => some histo
  | d :: data, histo =>
      (histo[x.bin d]?).bind fun n => build data (histo.set (x.bin d) (n + 1))

/-- The loop of `get_brightest`. -/
def limit (histo : List Nat) (wanted : Nat) : (index nsamps : Nat) → Option (Nat × Nat)
  | 0, nsamps => if nsamps < wanted then none else some (0, nsamps)
  | index + 1, nsamps =>
      if nsamps < wanted then
        (histo[index]?).bind fun n => limit histo wanted index (nsamps + n)
      else some (index + 1, nsamps)

/-- The pixels that are put into the table. -/
def candidates (data : List S16) (threshold : Int) : List Nat :=
  (List.range data.length).filter fun i => threshold ≤ (data.getD i 0).toInt

/-- `get_sampleset`, up to the output.  The random number for pixel `i` is `random i`. -/
def getSampleset (fuel : Nat) (random : Nat → Nat) (data : List S16) (wanted logTmpSize : Nat)
    (threshold : Int) : Option (List Nat) := do
  let table ← Table.scatter fuel ((candidates data threshold).map fun i => (i, random i))
    (List.replicate (2 ^ logTmpSize) none)
  let table ← Table.compact wanted fuel 0 0 table
  return List.reduceOption (table.take wanted)

/-- As many samples as the image has pixels. -/
def wanted (data : List S16) : Nat :=
  if x.sampleSize > data.length then data.length else x.sampleSize

/-- `get_brightest`. -/
def getBrightest (fuel : Nat) (random : Nat → Nat) (histo : List Nat) (data : List S16) :
    Option (List Nat) := do
  let (index, nsamps) ← limit histo (x.wanted data) (2 ^ x.logN) 0
  let log ← roundUp2log fuel nsamps
  getSampleset fuel random data (x.wanted data) (log + 1) (index * 2 ^ (15 - x.logN))

/-- `_pdp_histo_perform`, with `get_brightest` as the processor. -/
def perform (fuel : Nat) (random : Nat → Nat) (data : List S16) : Option (List Nat) := do
  let histo ← x.build data (List.replicate (2 ^ x.logN) 0)
  x.getBrightest fuel random histo data

/-- The image that is output has the samples marked. -/
def mark : List Nat → List S16 → Option (List S16)
  | [], data => some data
  | i :: samples, data =>
      if i < data.length then mark samples (data.set i 0x7fff) else none

/-! ## What it is meant to do -/

/-- How many pixels are in bin `j` or a brighter one. -/
def running (data : List S16) (j : Nat) : Nat := data.countP fun d => j ≤ x.bin d

/-- How many pixels are at least as bright as `e`. -/
def asBright (data : List S16) (e : Int) : Nat := data.countP fun d => e ≤ d.toInt

/-- The lower edge of a bin. -/
def edge (j : Nat) : Int := j * 2 ^ (15 - x.logN)

/-- The running count first reaches `n` in bin `j`. -/
def Reaches (data : List S16) (n j : Nat) : Prop :=
  j < 2 ^ x.logN ∧ n ≤ x.running data j ∧ ∀ i, j < i → i < 2 ^ x.logN → x.running data i < n

/-- A sample of the brightest pixels. -/
structure Brightest (data : List S16) (samples : List Nat) : Prop where
  length : samples.length = min x.sampleSize data.length
  nodup : samples.Nodup
  bright : ∃ j, x.Reaches data samples.length j ∧
    ∀ i ∈ samples, ∃ d, data[i]? = some d ∧ x.edge j ≤ d.toInt

/-- It ends, with a sample whose pixels can be marked. -/
def Works (random : Nat → Nat) (data : List S16) : Prop :=
  ∃ fuel samples, x.perform fuel random data = some samples ∧ x.Brightest data samples ∧
    ∃ image, mark samples (List.replicate data.length 0) = some image

end Histo

/-! ## The logarithm -/

section Log

variable {fuel l r n : Nat}

theorem log2Loop_spec (h : log2Loop fuel n l = some r) : ∃ m, r = l + m ∧ n < 2 ^ m := by
  induction fuel generalizing n l with
  | zero => cases h
  | succ fuel ih =>
      rw [log2Loop] at h
      split at h
      · next h0 =>
          cases h
          exact ⟨0, rfl, by omega⟩
      · obtain ⟨m, hr, hm⟩ := ih (n := n / 2) h
        refine ⟨m + 1, by omega, ?_⟩
        rw [Nat.pow_succ]
        omega

theorem exists_log2Loop (hfuel : n < fuel) (l : Nat) : ∃ r, log2Loop fuel n l = some r := by
  induction fuel generalizing n l with
  | zero => exact absurd hfuel (Nat.not_lt_zero n)
  | succ fuel ih =>
      rw [log2Loop]
      split
      · exact ⟨l, rfl⟩
      · exact ih (n := n / 2) (by omega) (l + 1)

theorem log2Loop_neg_one (fuel l : Nat) : log2Loop fuel (-1) l = none := by
  induction fuel generalizing l with
  | zero => rfl
  | succ fuel ih => exact ih (l + 1)

theorem roundUp2log_zero (fuel : Nat) : roundUp2log fuel 0 = none := by
  rw [roundUp2log, Int.zero_sub, log2Loop_neg_one]
  rfl

/-- The table is large enough, or as large as it gets. -/
theorem roundUp2log_spec (h : roundUp2log fuel n = some l) :
    l < 16 ∧ (n ≤ 2 ^ (l + 1) ∨ l = 15) := by
  cases n with
  | zero =>
      rw [Int.natCast_zero, roundUp2log_zero] at h
      cases h
  | succ n =>
      rw [roundUp2log, Int.natCast_succ, Int.add_sub_cancel] at h
      obtain ⟨r, hloop, hl⟩ := Option.map_eq_some_iff.mp h
      obtain ⟨m, hm, hlt⟩ := log2Loop_spec hloop
      rw [Nat.zero_add] at hm
      subst hm
      split at hl
      · next hlt16 =>
          subst hl
          refine ⟨hlt16, .inl ?_⟩
          rw [Nat.pow_succ]
          omega
      · exact ⟨by omega, .inr hl.symm⟩

theorem exists_roundUp2log (hn : 0 < n) (hfuel : n ≤ fuel) : ∃ l, roundUp2log fuel n = some l := by
  obtain ⟨m, rfl⟩ := Nat.exists_eq_succ_of_ne_zero hn.ne'
  obtain ⟨r, hr⟩ := exists_log2Loop (n := m) (l := 0) hfuel
  exact ⟨_, by rw [roundUp2log, Int.natCast_succ, Int.add_sub_cancel, hr]; rfl⟩

end Log

namespace Histo

variable {x : Histo} {data : List S16} {histo histo' samples : List Nat} {fuel wanted i j n : Nat}
  {random : Nat → Nat} {d : S16}

/-! ## The histogram -/

theorem bin_lt (hlog : x.logN ≤ 15) (d : S16) : x.bin d < 2 ^ x.logN := by
  have hd : d.toInt < 2 ^ 15 := BitVec.toInt_lt
  have hpow : (2 : Int) ^ x.logN * 2 ^ (15 - x.logN) = 2 ^ 15 := by
    rw [← pow_add]
    congr 1
    omega
  have hpos : (0 : Int) < 2 ^ (15 - x.logN) := by positivity
  have hdiv : d.toInt / 2 ^ (15 - x.logN) < 2 ^ x.logN :=
    Int.ediv_lt_of_lt_mul hpos (by rw [hpow]; exact hd)
  have hcast : ((2 ^ x.logN : Nat) : Int) = 2 ^ x.logN := by push_cast; rfl
  have hpos' : 0 < 2 ^ x.logN := Nat.two_pow_pos _
  unfold bin
  dsimp only
  split
  · exact hpos'
  · omega

/-- A bin but the first has the pixels from its lower edge on. -/
theorem le_bin_iff (hj : 0 < j) : j ≤ x.bin d ↔ x.edge j ≤ d.toInt := by
  have hpos : (0 : Int) < 2 ^ (15 - x.logN) := by positivity
  have hdiv : (j : Int) ≤ d.toInt / 2 ^ (15 - x.logN) ↔ x.edge j ≤ d.toInt :=
    Int.le_ediv_iff_mul_le hpos
  rw [← hdiv]
  unfold bin
  dsimp only
  split
  · omega
  · omega

theorem edge_le (h : i ≤ j) : x.edge i ≤ x.edge j :=
  mul_le_mul_of_nonneg_right (by exact_mod_cast h) (by positivity)

/-- A bin counts at least the pixels from its lower edge on. -/
theorem asBright_le_running (x : Histo) (data : List S16) (j : Nat) :
    asBright data (x.edge j) ≤ x.running data j := by
  refine List.countP_mono_left fun d _ hd => ?_
  rcases Nat.eq_zero_or_pos j with rfl | hj
  · exact decide_eq_true (Nat.zero_le _)
  · exact decide_eq_true ((le_bin_iff hj).mpr (of_decide_eq_true hd))

theorem running_eq_asBright (hj : 0 < j) : x.running data j = asBright data (x.edge j) :=
  List.countP_congr fun d _ => by simp only [decide_eq_true_eq, le_bin_iff hj]

theorem running_zero : x.running data 0 = data.length :=
  List.countP_eq_length.mpr fun _ _ => decide_eq_true (Nat.zero_le _)

theorem running_succ : x.running data j =
    x.running data (j + 1) + data.countP fun d => x.bin d = j := by
  unfold running
  induction data with
  | nil => rfl
  | cons d data ih =>
      simp only [List.countP_cons, ih, decide_eq_true_eq]
      split_ifs <;> omega

theorem running_end (hlog : x.logN ≤ 15) : x.running data (2 ^ x.logN) = 0 :=
  List.countP_eq_zero.mpr fun d _ hd => by
    have hlt := bin_lt hlog d
    have hle := of_decide_eq_true hd
    omega

theorem asBright_mono {e e' : Int} (h : e ≤ e') : asBright data e' ≤ asBright data e :=
  List.countP_mono_left fun _ _ hd => decide_eq_true (h.trans (of_decide_eq_true hd))

theorem build_spec (data : List S16) (hlog : x.logN ≤ 15) (hlength : histo.length = 2 ^ x.logN) :
    ∃ histo', x.build data histo = some histo' ∧ histo'.length = 2 ^ x.logN ∧
      ∀ j, histo'.getD j 0 = histo.getD j 0 +
        if j < 2 ^ x.logN then data.countP fun d => x.bin d = j else 0 := by
  induction data generalizing histo with
  | nil => exact ⟨histo, rfl, hlength, fun j => by simp⟩
  | cons d data ih =>
      have hlt : x.bin d < histo.length := hlength ▸ bin_lt hlog d
      have hset : (histo.set (x.bin d) (histo[x.bin d] + 1)).length = 2 ^ x.logN :=
        List.length_set.trans hlength
      obtain ⟨histo', hbuild, hlength', hcount⟩ := ih hset
      refine ⟨histo', ?_, hlength', fun j => ?_⟩
      · rw [build, List.getElem?_eq_getElem hlt, Option.bind_some, hbuild]
      · rw [hcount j]
        simp only [List.getD_eq_getElem?_getD, List.getElem?_set, List.countP_cons]
        by_cases hj : x.bin d = j
        · subst hj
          simp only [hlt, if_true, decide_true, bin_lt hlog d, List.getElem?_eq_getElem hlt,
            Option.getD_some]
          omega
        · simp [hj]

theorem exists_build (hlog : x.logN ≤ 15) (data : List S16) :
    ∃ histo, x.build data (List.replicate (2 ^ x.logN) 0) = some histo ∧
      histo.length = 2 ^ x.logN ∧
      ∀ j < 2 ^ x.logN, histo[j]? = some (data.countP fun d => x.bin d = j) := by
  obtain ⟨histo, hbuild, hlength, hcount⟩ :=
    build_spec data hlog (List.length_replicate (n := 2 ^ x.logN) (a := 0))
  refine ⟨histo, hbuild, hlength, fun j hj => ?_⟩
  have hj' := hcount j
  have hin : j < histo.length := by omega
  rw [if_pos hj, List.getD_replicate, Nat.zero_add] at hj'
  · rw [List.getElem?_eq_getElem hin, ← hj', List.getD_eq_getElem _ _ hin]
  · exact hj

/-- The search from the brightest bin on ends in the one that the running count first reaches the
number in. -/
theorem exists_limit
    (hhisto : ∀ j < 2 ^ x.logN, histo[j]? = some (data.countP fun d => x.bin d = j))
    (hwanted : wanted ≤ data.length) (index : Nat) (hindex : index ≤ 2 ^ x.logN) :
    ∃ i ≤ index, limit histo wanted index (x.running data index) = some (i, x.running data i) ∧
      wanted ≤ x.running data i ∧ ∀ j, i < j → j ≤ index → x.running data j < wanted := by
  induction index with
  | zero =>
      have hle : wanted ≤ x.running data 0 := by rwa [running_zero]
      exact ⟨0, Nat.le_refl 0, if_neg (Nat.not_lt.mpr hle), hle, fun j hj hj' => by omega⟩
  | succ index ih =>
      rw [limit]
      split
      · next hlt =>
          obtain ⟨i, hi, hlimit, hle, hbelow⟩ := ih (by omega)
          refine ⟨i, by omega, ?_, hle, fun j hj hj' => ?_⟩
          · rw [hhisto index hindex, Option.bind_some, ← running_succ, hlimit]
          · rcases Nat.lt_or_ge index j with hj'' | hj''
            · rwa [show j = index + 1 by omega]
            · exact hbelow j hj hj''
      · next hnot =>
          exact ⟨index + 1, Nat.le_refl _, rfl, Nat.not_lt.mp hnot, fun j hj hj' => by omega⟩

/-! ## The sample -/

theorem mem_candidates {e : Int} :
    i ∈ candidates data e ↔ ∃ d, data[i]? = some d ∧ e ≤ d.toInt := by
  simp only [candidates, List.mem_filter, List.mem_range, decide_eq_true_eq]
  constructor
  · rintro ⟨hi, he⟩
    refine ⟨data[i], List.getElem?_eq_getElem hi, ?_⟩
    rwa [List.getD_eq_getElem _ _ hi] at he
  · rintro ⟨d, hd, he⟩
    obtain ⟨hi, rfl⟩ := List.getElem?_eq_some_iff.mp hd
    exact ⟨hi, by rwa [List.getD_eq_getElem _ _ hi]⟩

theorem length_candidates (data : List S16) (e : Int) :
    (candidates data e).length = asBright data e := by
  have hdata : data = (List.range data.length).map fun i => data.getD i 0 := by
    refine List.ext_getElem (by simp) fun i hi hi' => ?_
    rw [List.getElem_map, List.getElem_range, List.getD_eq_getElem _ _ hi]
  rw [asBright, candidates, ← List.countP_eq_length_filter]
  conv_rhs => rw [hdata, List.countP_map]
  rfl

/-- The table of `get_sampleset`, when there is one. -/
theorem getSampleset_eq {e : Int} (h : getSampleset fuel random data wanted i e = some samples) :
    asBright data e ≤ 2 ^ i ∧ wanted ≤ asBright data e ∧ samples.length = wanted ∧
      samples.Nodup ∧ ∀ p ∈ samples, p ∈ candidates data e := by
  obtain ⟨table, hscatter, hrest⟩ := Option.bind_eq_some_iff.mp h
  obtain ⟨table', hcompact, hsamples⟩ := Option.bind_eq_some_iff.mp hrest
  obtain ⟨hlength, hperm⟩ := Table.scatter_spec hscatter
  obtain ⟨hle, htake⟩ := Table.compact_spec hcompact (Nat.le_refl 0) (Nat.zero_le _)
  rw [List.length_replicate] at hlength
  rw [List.map_map, List.reduceOption_replicate_none, List.append_nil] at hperm
  have hperm' : (List.reduceOption table).Perm (candidates data e) := by
    have hid : (Prod.fst ∘ fun i => (i, random i)) = (id : Nat → Nat) := rfl
    rwa [hid, List.map_id] at hperm
  have hcount := hperm'.length_eq
  rw [length_candidates] at hcount
  rw [List.drop_zero, Nat.zero_add] at hle
  have hsome : samples = (List.reduceOption table).take wanted := by
    have hfront : List.reduceOption (table'.take wanted) = samples := Option.some.inj hsamples
    rw [← hfront, htake, List.take_zero, List.nil_append, List.drop_zero, Nat.sub_zero]
    simp [List.reduceOption]
  refine ⟨?_, by omega, ?_, ?_, fun p hp => ?_⟩
  · have := List.reduceOption_length_le table
    omega
  · rw [hsome, List.length_take]
    omega
  · rw [hsome]
    exact (hperm'.nodup_iff.mpr (List.nodup_range.filter _)).sublist (List.take_sublist _ _)
  · rw [hsome] at hp
    exact hperm'.mem_iff.mp (List.mem_of_mem_take hp)

/-- There is room for the candidates, and there are enough of them. -/
theorem exists_getSampleset {e : Int} (hroom : asBright data e ≤ 2 ^ i)
    (hwanted : wanted ≤ asBright data e) (hfuel : 2 ^ i < fuel) (random : Nat → Nat) :
    ∃ samples, getSampleset fuel random data wanted i e = some samples := by
  have hlength : (List.replicate (2 ^ i) (none : Option Nat)).length = 2 ^ i :=
    List.length_replicate
  obtain ⟨table, hscatter⟩ : ∃ table, Table.scatter fuel
      ((candidates data e).map fun i => (i, random i)) (List.replicate (2 ^ i) none) =
        some table := by
    refine Table.exists_scatter (by omega) ?_
    rw [List.length_map, length_candidates, List.reduceOption_replicate_none, hlength]
    exact hroom
  obtain ⟨hlength', hperm⟩ := Table.scatter_spec hscatter
  have hcount := hperm.length_eq
  rw [List.map_map, List.length_append, List.length_map, length_candidates,
    List.reduceOption_replicate_none] at hcount
  obtain ⟨table', hcompact⟩ : ∃ table', Table.compact wanted fuel 0 0 table = some table' := by
    refine Table.exists_compact (Nat.le_refl 0) ?_ (by omega)
    rw [List.drop_zero, hcount]
    simpa using hwanted
  exact ⟨_, Option.bind_eq_some_iff.mpr ⟨table, hscatter,
    Option.bind_eq_some_iff.mpr ⟨table', hcompact, rfl⟩⟩⟩

theorem exists_mark {image : List S16} (h : ∀ i ∈ samples, i < image.length) :
    ∃ image', mark samples image = some image' := by
  induction samples generalizing image with
  | nil => exact ⟨image, rfl⟩
  | cons i samples ih =>
      rw [mark, if_pos (h i List.mem_cons_self)]
      refine ih fun j hj => ?_
      rw [List.length_set]
      exact h j (List.mem_cons_of_mem _ hj)

/-! ## When it works -/

theorem wanted_eq (x : Histo) (data : List S16) : x.wanted data = min x.sampleSize data.length := by
  unfold Histo.wanted
  split_ifs <;> omega

/-- Where the search ends, and what is left to be done. -/
theorem exists_reaches (hlog : x.logN ≤ 15) (hwanted : 0 < x.wanted data) :
    ∃ j, x.Reaches data (x.wanted data) j ∧ ∀ fuel random, x.perform fuel random data =
      (roundUp2log fuel (x.running data j)).bind fun log =>
        getSampleset fuel random data (x.wanted data) (log + 1) (x.edge j) := by
  obtain ⟨histo, hbuild, -, hhisto⟩ := exists_build hlog data
  have hle : x.wanted data ≤ data.length := by
    rw [wanted_eq]
    exact Nat.min_le_right _ _
  obtain ⟨j, hj, hlimit, hreach, hbelow⟩ :=
    exists_limit hhisto hle (2 ^ x.logN) (Nat.le_refl _)
  rw [running_end hlog] at hlimit
  have hne : j ≠ 2 ^ x.logN := by
    rintro rfl
    rw [running_end hlog] at hreach
    omega
  refine ⟨j, ⟨by omega, hreach, fun i hi hi' => hbelow i hi hi'.le⟩, fun fuel random => ?_⟩
  rw [perform, hbuild, Option.bind_eq_bind, Option.bind_some, getBrightest, hlimit,
    Option.bind_eq_bind, Option.bind_some]
  rfl

/-- A bin whose lower edge has enough pixels, and no more than the table has room for. -/
def HasEdge (x : Histo) (data : List S16) : Prop :=
  ∃ j < 2 ^ x.logN, min x.sampleSize data.length ≤ asBright data (x.edge j) ∧
    asBright data (x.edge j) ≤ 2 ^ 16

/-- If there is such a bin, then the one where the search ends is. -/
theorem HasEdge.of_reaches (h : x.HasEdge data) (hj : x.Reaches data (x.wanted data) j) :
    x.wanted data ≤ asBright data (x.edge j) ∧ asBright data (x.edge j) ≤ 2 ^ 16 := by
  obtain ⟨i, hi, hle, hroom⟩ := h
  rw [← wanted_eq] at hle
  have hij : i ≤ j := by
    by_contra hnot
    have hlt := hj.2.2 i (Nat.not_le.mp hnot) hi
    have := asBright_le_running x data i
    omega
  refine ⟨?_, (asBright_mono (edge_le hij)).trans hroom⟩
  rcases Nat.eq_zero_or_pos j with rfl | hpos
  · rwa [Nat.le_zero.mp hij] at hle
  · rw [← running_eq_asBright hpos]
    exact hj.2.1

theorem works_of_hasEdge (hlog : x.logN ≤ 15) (hsize : 0 < x.sampleSize) (hpos : 0 < data.length)
    (h : x.HasEdge data) (random : Nat → Nat) : x.Works random data := by
  have hwanted : 0 < x.wanted data := by
    rw [wanted_eq]
    omega
  obtain ⟨j, hj, hperform⟩ := exists_reaches hlog hwanted
  obtain ⟨hle, hroom⟩ := h.of_reaches hj
  have hrunning := asBright_le_running x data j
  obtain ⟨fuel, hfuel⟩ : ∃ fuel, fuel = x.running data j + 2 ^ 16 + 1 := ⟨_, rfl⟩
  obtain ⟨log, hlogEq⟩ : ∃ log, roundUp2log fuel (x.running data j) = some log :=
    exists_roundUp2log (by omega) (by omega)
  obtain ⟨hlt, htable⟩ := roundUp2log_spec hlogEq
  have hpow : 2 ^ (log + 1) ≤ 2 ^ 16 := Nat.pow_le_pow_right (by decide) hlt
  have hfits : asBright data (x.edge j) ≤ 2 ^ (log + 1) := by
    rcases htable with htable | rfl
    · omega
    · exact hroom
  have hroomy : 2 ^ (log + 1) < fuel := by omega
  obtain ⟨samples, hsamples⟩ := exists_getSampleset hfits hle hroomy random
  obtain ⟨-, -, hlength, hnodup, hmem⟩ := getSampleset_eq hsamples
  have hrun : x.perform fuel random data = some samples := by
    rw [hperform, hlogEq, Option.bind_some, hsamples]
  refine ⟨_, samples, hrun, ⟨?_, hnodup, j, hlength.symm ▸ hj, fun i hi => ?_⟩, ?_⟩
  · rw [hlength, wanted_eq]
  · exact mem_candidates.mp (hmem i hi)
  · refine exists_mark fun i hi => ?_
    obtain ⟨d, hd, -⟩ := mem_candidates.mp (hmem i hi)
    rw [List.length_replicate]
    exact (List.getElem?_eq_some_iff.mp hd).1

theorem hasEdge_of_perform (hlog : x.logN ≤ 15) (hwanted : 0 < x.wanted data)
    (h : x.perform fuel random data = some samples) : x.HasEdge data := by
  obtain ⟨j, hj, hperform⟩ := exists_reaches hlog hwanted
  rw [hperform] at h
  obtain ⟨log, hlogEq, hsamples⟩ := Option.bind_eq_some_iff.mp h
  obtain ⟨hlt, -⟩ := roundUp2log_spec hlogEq
  obtain ⟨hroom, hle, -, -, -⟩ := getSampleset_eq hsamples
  rw [wanted_eq] at hle
  exact ⟨j, hj.1, hle, hroom.trans (Nat.pow_le_pow_right (by decide) hlt)⟩

theorem perform_nil (fuel : Nat) (random : Nat → Nat) : x.perform fuel random [] = none := by
  have hlimit : limit (List.replicate (2 ^ x.logN) 0) 0 (2 ^ x.logN) 0 = some (2 ^ x.logN, 0) := by
    cases 2 ^ x.logN <;> rfl
  have hwanted : x.wanted [] = 0 := by
    rw [wanted_eq]
    exact Nat.min_zero _
  rw [perform, build, Option.bind_eq_bind, Option.bind_some, getBrightest, hwanted, hlimit,
    Option.bind_eq_bind, Option.bind_some]
  show (roundUp2log fuel 0).bind _ = none
  rw [roundUp2log_zero, Option.bind_none]

/-- The sample is what it is meant to be if there are pixels, and a bin has enough of them from its
lower edge on, but no more than `2 ^ 16`. -/
theorem histo_works_iff (hlog : x.logN ≤ 15) (hsize : 0 < x.sampleSize) :
    x.Works random data ↔ 0 < data.length ∧ x.HasEdge data := by
  constructor
  · rintro ⟨fuel, samples, hperform, -, -⟩
    have hpos : 0 < data.length := by
      by_contra hnot
      rw [List.length_eq_zero_iff.mp (by omega : data.length = 0), perform_nil] at hperform
      cases hperform
    refine ⟨hpos, hasEdge_of_perform hlog ?_ hperform⟩
    rw [wanted_eq]
    omega
  · rintro ⟨hpos, h⟩
    exact works_of_hasEdge hlog hsize hpos h random

/-- One sample of three pixels, with two bins. -/
theorem histo_works_iff_threePixels : Works ⟨1, 1⟩ (fun _ => 0) [3, 0x7000, -1] ↔
    0 < ([3, 0x7000, -1] : List S16).length ∧ HasEdge ⟨1, 1⟩ [3, 0x7000, -1] :=
  histo_works_iff (by decide) (by decide)

/-- Two samples of an image that has one pixel that is not negative. -/
theorem not_histo_works : ¬ Works ⟨8, 2⟩ (fun _ => 0) [100, -5] := by
  rintro ⟨fuel, samples, hperform, -, -⟩
  obtain ⟨j, -, hle, -⟩ := hasEdge_of_perform (by decide) (by decide) hperform
  have hmono : asBright [100, -5] (edge ⟨8, 2⟩ j) ≤ asBright [100, -5] (edge ⟨8, 2⟩ 0) :=
    asBright_mono (edge_le (Nat.zero_le j))
  have hone : asBright [100, -5] (edge ⟨8, 2⟩ 0) = 1 := by decide
  have htwo : 2 ≤ asBright [100, -5] (edge ⟨8, 2⟩ j) := hle
  omega

end Histo

end PureDataPacket
