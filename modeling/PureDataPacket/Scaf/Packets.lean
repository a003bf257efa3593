/-
# `PureDataPacket.Scaf.Packets` — the packets of automata

The constructor rounds the width down to a multiple of 64 and means to round the height
down to a multiple of 4, but it rounds the width once more.  A step works on pairs of rows;
`processCa2DWithin` is the step as long as all words that it loads and stores are inside.

| | |
| :-- | :-- |
| `Packet.IsCa` | what is between a header and a packet of an automaton |
| `MadeCa` | what the constructor has made |
| `CreatesCa` | what is owed |
| `torusBlock_inside` | all words of a block of a torus are inside |
| `exists_madeCa` | if the size fits, a packet is made in some pool |
-/
import PureDataPacket.Scaf.Generation
import PureDataPacket.Type.Contract

namespace PureDataPacket

/-! ## The constructor -/

/-- `PDP_CA`. -/
def pdpCa : Nat := 2

/-- `PDP_CA_STANDARD`. -/
def pdpCaStandard : Nat := 1

/-- `pdp_packet_ca_get_description`; a subheader of an automaton has its `offset` where an image
has its `depth`, and its `currow` where that has its `chanmask`. -/
def pdpPacketCaGetDescription : Option Meta → Symbol
  | none => symInvalid
  | some header =>
      if header.type = pdpCa then
        if header.info.encoding = pdpCaStandard then
          "ca/1bit2D/".toList ++ printDim header.info.width ++ 'x' :: printDim header.info.height
        else "ca/unknown".toList
      else symUnknown

/-- The width that `pdp_packet_new_ca` makes of the one it is given. -/
def caWidth (width : Int) : Int :=
  let w := toInt32 (ofInt32 width &&& 0xffffffc0 : Nat)
  let w := toInt32 (ofInt32 w &&& 0xfffffffc : Nat)
  if w < 64 then 64 else w

def caHeight (height : Int) : Int := if height < 4 then 4 else height

/-- The header that it fills in. -/
def caHeader (w h : Int) (header : Meta) : Meta :=
  let header := { header with info := ⟨pdpCaStandard, ofInt32 w, ofInt32 h, 0, 0⟩ }
  { header with desc := some (pdpPacketCaGetDescription (some header)) }

/-- `pdp_packet_new_ca`, for a packet of `bytesize` bytes. -/
def newCaOf (width height bytesize : Int) : PoolProg Int :=
  construct pdpCa (ofInt32 bytesize) (caHeader (caWidth width) (caHeight height))

/-- `pdp_packet_new_ca`. -/
def pdpPacketNewCa (width height : Int) : PoolProg Int :=
  checked (intMul (caWidth width / 8) (caHeight height)) (newCaOf width height)

/-! ## A step inside the packets -/

namespace Ca

/-- A block, if its words are among the first `words0` and `words1` ones. -/
def processBlockWithin (rule : Mmx → Mmx) (dwwidth words0 words1 : Int) (x : Ca) (b : Block) :
    Option Ca :=
  if (∀ i ∈ b.env, 0 ≤ i ∧ i < words0) ∧ (0 ≤ b.dst ∧ b.dst < words1) ∧
      (0 ≤ b.dst + dwwidth ∧ b.dst + dwwidth < words1) then
    some (processBlock rule dwwidth x b)
  else none

/-- `pdp_ca_process_ca_2D`, if its words are inside and its numbers are `int`s. -/
def processCa2DWithin (words0 words1 : Int) (x : Ca) : Option Ca :=
  match x.caRoutine with
  | none => some x
  | some rule =>
      let header0 := x.packets x.packet0
      let width := toInt32 header0.width
      let height := toInt32 header0.height
      let dwwidth := width / 32
      let offset := shiftOffset width height (toInt32 header0.offset)
      if IsInt offset then
        let x := x.setHeader1 { x.header1 with offset := ofInt32 offset }
        ((blocks dwwidth height).foldlM (processBlockWithin rule dwwidth words0 words1) x).map
          checkStack
      else none

/-- A word that a step stores. -/
def Stores (dwwidth height a : Int) : Prop :=
  ∃ b ∈ blocks dwwidth height, a = b.dst ∨ a = b.dst + dwwidth

end Ca

/-- What is between a header and a packet of an automaton. -/
structure Packet.IsCa (q : Packet) (p : CaPacket) : Prop where
  width : p.width = q.info.width
  height : p.height = q.info.height
  offset : p.offset = q.info.depth

/-- A packet that `pdp_packet_new_ca` has made in some pool. -/
def MadeCa (width height : Int) (q : Packet) : Prop :=
  ∃ s r t, (pdpPacketNewCa width height).run s = .ok (r, t) ∧ t.pdpPacketHeader r = some q

/-- What is said of the constructor, and of a step from a packet of its to another one. -/
structure CreatesCa (width height : Int) : Prop where
  runs : ∀ s e, (pdpPacketNewCa width height).run s = .error e → e = .nullPointer
  made : ∀ s r t, (pdpPacketNewCa width height).run s = .ok (r, t) → r = -1 ∨
    ∃ q, t.pdpPacketHeader r = some q
  rounded : ∀ q, MadeCa width height q → 64 ∣ q.info.width ∧ 64 ≤ q.info.width ∧
    4 ∣ q.info.height ∧ 4 ≤ q.info.height ∧ 8 * q.data.size = q.info.width * q.info.height
  within : ∀ q₀ q₁, MadeCa width height q₀ → MadeCa width height q₁ → ∀ x : Ca,
    x.packet0 ≠ x.packet1 → q₀.IsCa (x.packets x.packet0) → q₁.IsCa x.header1 →
      x.processCa2DWithin (q₀.data.size / 4 : Nat) (q₁.data.size / 4 : Nat) = some x.processCa2D
  stored : ∀ q₀ q₁, MadeCa width height q₀ → MadeCa width height q₁ →
    ∀ a : Nat, a < q₁.data.size / 4 →
      Ca.Stores (toInt32 q₀.info.width / 32) (toInt32 q₀.info.height) a

/-! ## Rounding -/

/-- Clearing the last `k` bits of a word. -/
theorem land_mask {n mask k : Nat} (hn : n < 2 ^ 32)
    (hmask : ∀ i < 32, mask.testBit i = decide (k ≤ i)) : n &&& mask = n / 2 ^ k * 2 ^ k := by
  have hshift : n / 2 ^ k * 2 ^ k = n >>> k <<< k := by
    rw [Nat.shiftLeft_eq, Nat.shiftRight_eq_div_pow]
  rw [hshift]
  apply Nat.eq_of_testBit_eq
  intro i
  rw [Nat.testBit_and, Nat.testBit_shiftLeft, Nat.testBit_shiftRight]
  by_cases hi : i < 32
  · rw [hmask i hi]
    by_cases hk : k ≤ i
    · have hback : k + (i - k) = i := by omega
      simp [hk, hback]
    · simp [hk]
  · have hzero : ∀ j, 32 ≤ j → n.testBit j = false := fun j hj =>
      Nat.testBit_lt_two_pow (Nat.lt_of_lt_of_le hn (Nat.pow_le_pow_right (by omega) hj))
    by_cases hk : k ≤ i
    · have hback : k + (i - k) = i := by omega
      simp [hback, hzero i (by omega)]
    · simp [hk, hzero i (by omega)]

/-- Of an `int`, that is rounding down. -/
theorem toInt32_land {w : Int} (hw : IsInt w) :
    toInt32 (ofInt32 w &&& 0xffffffc0 : Nat) = w / 64 * 64 ∧
      toInt32 (ofInt32 w &&& 0xfffffffc : Nat) = w / 4 * 4 := by
  obtain ⟨hlo, hhi⟩ := hw
  have hn := ofInt32_lt w
  have hcast := ofInt32_eq w
  rw [land_mask (k := 6) hn (by decide), land_mask (k := 2) hn (by decide), toInt32_eq, toInt32_eq]
  constructor
  · split <;> omega
  · split <;> omega

theorem caWidth_eq {width : Int} (hw : IsInt width) :
    caWidth width = if width < 64 then 64 else width / 64 * 64 := by
  obtain ⟨hlo, hhi⟩ := hw
  have hround : IsInt (width / 64 * 64) := by
    constructor <;> omega
  unfold caWidth
  simp only [(toInt32_land ⟨hlo, hhi⟩).1, (toInt32_land hround).2]
  split <;> split <;> omega

attribute [irreducible] caWidth

theorem rounded {width height : Int} (hw : IsInt width) (hh : IsInt height) :
    64 ∣ caWidth width ∧ 64 ≤ caWidth width ∧ caWidth width < 2 ^ 31 ∧ 4 ≤ caHeight height ∧
      caHeight height < 2 ^ 31 := by
  have hwidth := caWidth_eq hw
  obtain ⟨hlo, hhi⟩ := hw
  obtain ⟨hlo', hhi'⟩ := hh
  rw [hwidth]
  unfold caHeight
  refine ⟨?_, ?_, ?_, ?_, ?_⟩ <;> split <;> omega

/-! ## What is made -/

/-- The bytes of the data area. -/
def caBytes (width height : Int) : Nat := (caWidth width / 8 * caHeight height).toNat

/-- The header of a packet that is made. -/
def caMade (width height : Int) : Meta :=
  caHeader (caWidth width) (caHeight height) (freshMeta pdpCa)

theorem constructs_newCa (width height bytesize : Int) :
    Constructs (newCaOf width height bytesize) pdpCa (ofInt32 bytesize) (caMade width height) :=
  constructs_construct _ _ _

section Made

variable {width height : Int}

theorem bytes_eq (hw : IsInt width) (hh : IsInt height)
    (hint : IsInt (caWidth width / 8 * caHeight height)) :
    ofInt32 (caWidth width / 8 * caHeight height) = caBytes width height ∧
      (caBytes width height : Int) = caWidth width / 8 * caHeight height ∧
      caBytes width height < 2 ^ 31 := by
  obtain ⟨-, hwide, -, htall, -⟩ := rounded hw hh
  have hpos : 0 ≤ caWidth width / 8 * caHeight height := Int.mul_nonneg (by omega) (by omega)
  have hcast : (caBytes width height : Int) = caWidth width / 8 * caHeight height :=
    Int.toNat_of_nonneg hpos
  obtain ⟨-, hhi⟩ := hint
  refine ⟨?_, hcast, by omega⟩
  rw [← hcast]
  exact ofInt32_of_nat_lt (by omega)

theorem runs_newCa (hint : IsInt (caWidth width / 8 * caHeight height)) (s : Pool) :
    (pdpPacketNewCa width height).run s =
      (newCaOf width height (caWidth width / 8 * caHeight height)).run s := by
  unfold pdpPacketNewCa intMul
  rw [if_pos hint]
  rfl

/-- If no `int` counts the bytes, nothing is defined. -/
theorem newCa_undefined (hint : ¬IsInt (caWidth width / 8 * caHeight height)) (s : Pool) :
    (pdpPacketNewCa width height).run s = .error .undefined := by
  unfold pdpPacketNewCa intMul
  rw [if_neg hint]
  rfl

theorem madeCa_spec (hw : IsInt width) (hh : IsInt height) {q : Packet}
    (hq : MadeCa width height q) : IsInt (caWidth width / 8 * caHeight height) ∧
      Fitting (caBytes width height) ∧ q.toMeta = caMade width height ∧
      q.data.size = caBytes width height := by
  obtain ⟨s, r, t, hrun, hr⟩ := hq
  by_cases hint : IsInt (caWidth width / 8 * caHeight height)
  · obtain ⟨hsize, -, hlt⟩ := bytes_eq hw hh hint
    rw [runs_newCa hint] at hrun
    have hcases := (constructs_newCa width height (caWidth width / 8 * caHeight height)).run_cases
      (ofInt32_lt _) s
    rw [hsize] at hcases
    rcases hcases with ⟨e, hrun', -⟩ | ⟨s₁, hrun'⟩ | ⟨hfit, r', s₁, data, hrun', hr', hdata, -⟩
    · cases hrun.symm.trans hrun'
    · cases hrun.symm.trans hrun'
      rw [Pool.header_neg_one] at hr
      cases hr
    · cases hrun.symm.trans hrun'
      cases hr.symm.trans hr'
      exact ⟨hint, hfit, rfl, hdata⟩
  · rw [newCa_undefined hint] at hrun
    cases hrun

theorem exists_madeCa (hw : IsInt width) (hh : IsInt height)
    (hint : IsInt (caWidth width / 8 * caHeight height)) (hfit : Fitting (caBytes width height)) :
    ∃ q, MadeCa width height q := by
  obtain ⟨hsize, -, -⟩ := bytes_eq hw hh hint
  obtain ⟨old, hold⟩ := exists_dataArea hfit
  have hconstructs := constructs_newCa width height (caWidth width / 8 * caHeight height)
  rw [hsize] at hconstructs
  obtain ⟨s₁, hrun, hr, -⟩ := run_recycled hconstructs (p := .fresh 0 old) (Nat.succ_pos 0) hfit hold
  exact ⟨_, _, _, _, (runs_newCa hint _).trans hrun, hr⟩

theorem dims_caMade (hw : IsInt width) (hh : IsInt height) :
    ((caMade width height).info.width : Int) = caWidth width ∧
      ((caMade width height).info.height : Int) = caHeight height ∧
      (caMade width height).info.depth = 0 := by
  obtain ⟨-, hwide, hwide', htall, htall'⟩ := rounded hw hh
  have hword : ∀ n : Int, 0 ≤ n → n < 2 ^ 31 → (ofInt32 n : Int) = n := by
    intro n hlo hhi
    rw [ofInt32_eq]
    omega
  have hinfo : (caMade width height).info =
      ⟨pdpCaStandard, ofInt32 (caWidth width), ofInt32 (caHeight height), 0, 0⟩ := rfl
  rw [hinfo]
  dsimp only
  exact ⟨hword (caWidth width) (by omega) hwide', hword (caHeight height) (by omega) htall', rfl⟩

end Made

/-! ## The words of a step -/

namespace Ca

theorem torusBlock_inside {dwwidth height i y : Int} (hi : 0 ≤ i) (hidw : i < dwwidth)
    (hy : 0 ≤ y) (hyh : y + 1 < height) :
    (∀ a ∈ (torusBlock dwwidth height i y).env, 0 ≤ a ∧ a < dwwidth * height) ∧
      (0 ≤ (torusBlock dwwidth height i y).dst ∧
        (torusBlock dwwidth height i y).dst < dwwidth * height) ∧
      (0 ≤ (torusBlock dwwidth height i y).dst + dwwidth ∧
        (torusBlock dwwidth height i y).dst + dwwidth < dwwidth * height) := by
  have hinside : ∀ row column : Int, 0 ≤ row → row < height → 0 ≤ column → column < dwwidth →
      0 ≤ row * dwwidth + column ∧ row * dwwidth + column < dwwidth * height := by
    intro row column hrow hrowh hcolumn hcolumnw
    have := Int.mul_nonneg hrow (show 0 ≤ dwwidth by omega)
    exact ⟨by omega, row_lt hrowh hcolumnw (by omega)⟩
  have hdown : (torusBlock dwwidth height i y).dst + dwwidth = (y + 1) * dwwidth + i := by
    show y * dwwidth + i + dwwidth = _
    rw [Int.add_mul]
    omega
  refine ⟨fun a ha => ?_, hinside y i hy (by omega) hi hidw, ?_⟩
  · obtain ⟨row, -, ha⟩ := List.mem_flatMap.mp ha
    have hrow := Int.emod_nonneg (y + row) (show height ≠ 0 by omega)
    have hrowh := Int.emod_lt_of_pos (y + row) (show 0 < height by omega)
    rcases List.mem_cons.mp ha with rfl | ha
    · exact hinside _ _ hrow hrowh (Int.emod_nonneg _ (by omega)) (Int.emod_lt_of_pos _ (by omega))
    · rw [List.mem_singleton.mp ha]
      exact hinside _ _ hrow hrowh (Int.emod_nonneg _ (by omega)) (Int.emod_lt_of_pos _ (by omega))
  · rw [hdown]
    exact hinside (y + 1) i (by omega) hyh hi hidw

theorem foldlM_processBlockWithin {rule : Mmx → Mmx} {dwwidth words0 words1 : Int} {l : List Block}
    (hl : ∀ b ∈ l, (∀ i ∈ b.env, 0 ≤ i ∧ i < words0) ∧ (0 ≤ b.dst ∧ b.dst < words1) ∧
      (0 ≤ b.dst + dwwidth ∧ b.dst + dwwidth < words1)) (x : Ca) :
    l.foldlM (processBlockWithin rule dwwidth words0 words1) x =
      some (l.foldl (processBlock rule dwwidth) x) := by
  induction l generalizing x with
  | nil => rfl
  | cons b l ih =>
      have hb : processBlockWithin rule dwwidth words0 words1 x b =
          some (processBlock rule dwwidth x b) := if_pos (hl b List.mem_cons_self)
      rw [List.foldlM_cons, hb]
      exact ih (fun c hc => hl c (List.mem_cons_of_mem _ hc)) _

/-- A step on an even number of rows stays inside, if its offset is an `int`. -/
theorem processCa2DWithin_eq {x : Ca} {dwwidth n words : Int} (hdw : 0 < dwwidth) (hn : 2 ≤ n)
    (hwidth : toInt32 (x.packets x.packet0).width / 32 = dwwidth)
    (hheight : toInt32 (x.packets x.packet0).height = 2 * n) (hwords : words = dwwidth * (2 * n))
    (hoffset : IsInt (shiftOffset (toInt32 (x.packets x.packet0).width)
      (toInt32 (x.packets x.packet0).height) (toInt32 (x.packets x.packet0).offset))) :
    x.processCa2DWithin words words = some x.processCa2D := by
  unfold processCa2DWithin processCa2D
  cases x.caRoutine with
  | none => rfl
  | some rule =>
      simp only [if_pos hoffset]
      rw [hwidth, hheight, foldlM_processBlockWithin fun b hb => ?_]
      · rfl
      · obtain ⟨q, i, hq, hqn, hi, hidw, rfl⟩ := (mem_blocks hdw hn b).mp hb
        rw [hwords]
        exact torusBlock_inside hi hidw (by omega) (by omega)

theorem isInt_of_within {x x' : Ca} {words0 words1 : Int} {rule : Mmx → Mmx}
    (hrule : x.caRoutine = some rule) (hx : x.processCa2DWithin words0 words1 = some x') :
    IsInt (shiftOffset (toInt32 (x.packets x.packet0).width)
      (toInt32 (x.packets x.packet0).height) (toInt32 (x.packets x.packet0).offset)) := by
  by_contra hoffset
  unfold processCa2DWithin at hx
  rw [hrule] at hx
  simp only [if_neg hoffset] at hx
  cases hx

end Ca

/-! ## Two packets of one size -/

section Sizes

variable {width height : Int}

/-- A packet that is made, with the numbers of its step. -/
theorem sizes_of_madeCa (hw : IsInt width) (hh : IsInt height) {q : Packet}
    (hq : MadeCa width height q) : (q.info.width : Int) = caWidth width ∧
      (q.info.height : Int) = caHeight height ∧ q.info.depth = 0 ∧
      8 * (q.data.size : Int) = caWidth width * caHeight height := by
  obtain ⟨hint, -, hmeta, hsize⟩ := madeCa_spec hw hh hq
  obtain ⟨hqw, hqh, hqd⟩ := dims_caMade hw hh
  obtain ⟨-, hbytes, -⟩ := bytes_eq hw hh hint
  obtain ⟨⟨k, hk⟩, -, -, -, -⟩ := rounded hw hh
  have hinfo : q.info = (caMade width height).info := by
    show q.toMeta.info = _
    rw [hmeta]
  rw [hinfo]
  refine ⟨hqw, hqh, hqd, ?_⟩
  have hrow : 8 * (caWidth width / 8) = caWidth width := by omega
  rw [hsize, hbytes, ← Int.mul_assoc, hrow]

theorem words_of_madeCa (hw : IsInt width) (hh : IsInt height) {q : Packet}
    (hq : MadeCa width height q) : 0 < caWidth width / 32 ∧
      toInt32 q.info.width / 32 = caWidth width / 32 ∧ toInt32 q.info.height = caHeight height ∧
      ((q.data.size / 4 : Nat) : Int) = caWidth width / 32 * caHeight height := by
  obtain ⟨hqw, hqh, -, hsize⟩ := sizes_of_madeCa hw hh hq
  obtain ⟨⟨k, hk⟩, hwide, hwide', htall, htall'⟩ := rounded hw hh
  have hcolumns : caWidth width / 32 = 2 * k := by omega
  have hcells : caWidth width * caHeight height = 32 * (2 * k * caHeight height) := by
    rw [hk]
    ring
  refine ⟨by omega, ?_, ?_, ?_⟩
  · rw [toInt32_of_nat_lt (by omega), hqw]
  · rw [toInt32_of_nat_lt (by omega), hqh]
  · rw [hcolumns]
    rw [hcells] at hsize
    omega

/-- Where a step between two such packets puts the picture. -/
theorem shift_of_madeCa (hw : IsInt width) (hh : IsInt height) {q : Packet}
    (hq : MadeCa width height q) :
    shiftOffset (toInt32 q.info.width) (toInt32 q.info.height) (toInt32 q.info.depth) =
      caWidth width * caHeight height - 16 := by
  obtain ⟨hqw, hqh, hqd, -⟩ := sizes_of_madeCa hw hh hq
  obtain ⟨-, hwide, hwide', htall, htall'⟩ := rounded hw hh
  have hzero : toInt32 ((0 : Nat) : Int) = 0 := by decide
  rw [hqd, toInt32_of_nat_lt (by omega), toInt32_of_nat_lt (by omega), hqw, hqh, hzero]
  unfold shiftOffset
  have hx : (Int.tmod 0 (caWidth width) + caWidth width - 16).tmod (caWidth width) =
      caWidth width - 16 := by
    rw [Int.zero_tmod, Int.zero_add]
    exact Int.tmod_eq_of_lt (by omega) (by omega)
  have hy : (Int.tdiv 0 (caWidth width) + caHeight height - 1).tmod (caHeight height) =
      caHeight height - 1 := by
    rw [Int.zero_tdiv, Int.zero_add]
    exact Int.tmod_eq_of_lt (by omega) (by omega)
  simp only [hx, hy]
  rw [Int.sub_mul, Int.mul_comm]
  omega

/-- An object with two packets, each with the header of `q` and no cell. -/
def stepping (q : Packet) : Ca where
  packets _ := ⟨q.info.width, q.info.height, q.info.depth, fun _ => 0⟩
  packet0 := 0
  packet1 := 1
  mmx := ⟨fun _ => 0, 0, fun _ => 0, fun _ => 0⟩
  caRoutine := some id
  tos := 0
  saved := 0

theorem createsCa_of (hw : IsInt width) (hh : IsInt height)
    (hint : IsInt (caWidth width / 8 * caHeight height))
    (hsize : Refused (caBytes width height) ∨
      4 ∣ caHeight height ∧ caWidth width * caHeight height ≤ 2 ^ 31) :
    CreatesCa width height := by
  obtain ⟨hbytes, -, hlt⟩ := bytes_eq hw hh hint
  have hcases := fun s => (constructs_newCa width height
    (caWidth width / 8 * caHeight height)).run_cases (ofInt32_lt _) s
  simp only [hbytes] at hcases
  have hgood : ∀ q, MadeCa width height q →
      4 ∣ caHeight height ∧ caWidth width * caHeight height ≤ 2 ^ 31 := by
    intro q hq
    obtain ⟨-, hfit, -, -⟩ := madeCa_spec hw hh hq
    exact hsize.resolve_left fun hrefused => not_fitting_of_refused hrefused hfit
  obtain ⟨hwidth, hwide, hwide', htall, htall'⟩ := rounded hw hh
  refine ⟨?_, ?_, ?_, ?_, ?_⟩
  · intro s e hrun
    rw [runs_newCa hint] at hrun
    rcases hcases s with ⟨e', hrun', he⟩ | ⟨s₁, hrun'⟩ | ⟨-, r, s₁, data, hrun', -⟩
    · cases hrun.symm.trans hrun'
      refine he.resolve_right fun hover => ?_
      unfold Overruns u32 at hover
      have : pdpHeaderSize < 2 ^ 31 := by decide
      omega
    · cases hrun.symm.trans hrun'
    · cases hrun.symm.trans hrun'
  · intro s r t hrun
    rw [runs_newCa hint] at hrun
    rcases hcases s with ⟨e', hrun', -⟩ | ⟨s₁, hrun'⟩ | ⟨-, r', s₁, data, hrun', hr, -⟩
    · cases hrun.symm.trans hrun'
    · cases hrun.symm.trans hrun'
      exact Or.inl rfl
    · cases hrun.symm.trans hrun'
      exact Or.inr ⟨_, hr⟩
  · intro q hq
    obtain ⟨hqw, hqh, -, harea⟩ := sizes_of_madeCa hw hh hq
    obtain ⟨hdvd, -⟩ := hgood q hq
    rw [← hqw] at hwidth hwide
    rw [← hqh] at hdvd htall
    rw [← hqw, ← hqh] at harea
    exact ⟨by exact_mod_cast hwidth, by exact_mod_cast hwide, by exact_mod_cast hdvd,
      by exact_mod_cast htall, by exact_mod_cast harea⟩
  · intro q₀ q₁ hq₀ hq₁ x hne hp₀ hp₁
    obtain ⟨⟨k, hk⟩, harea⟩ := hgood q₀ hq₀
    obtain ⟨hdw, hcolumns, hrows, hwords⟩ := words_of_madeCa hw hh hq₀
    obtain ⟨-, -, -, hwords₁⟩ := words_of_madeCa hw hh hq₁
    have heven : caHeight height = 2 * (2 * k) := by omega
    rw [hwords, hwords₁]
    apply Ca.processCa2DWithin_eq hdw (n := 2 * k) (by omega)
    · rw [hp₀.width, hcolumns]
    · rw [hp₀.height, hrows, heven]
    · rw [heven]
    · rw [hp₀.width, hp₀.height, hp₀.offset, shift_of_madeCa hw hh hq₀]
      have := Int.mul_nonneg (show 0 ≤ caWidth width - 16 by omega)
        (show 0 ≤ caHeight height - 1 by omega)
      constructor <;> nlinarith
  · intro q₀ q₁ hq₀ hq₁ a ha
    obtain ⟨⟨k, hk⟩, -⟩ := hgood q₀ hq₀
    obtain ⟨hdw, hcolumns, hrows, -⟩ := words_of_madeCa hw hh hq₀
    obtain ⟨-, -, -, hwords₁⟩ := words_of_madeCa hw hh hq₁
    have heven : caHeight height = 2 * (2 * k) := by omega
    have hlast : (a : Int) < caWidth width / 32 * caHeight height := by
      rw [← hwords₁]
      exact Int.ofNat_lt.mpr ha
    rw [heven] at hlast
    rw [hcolumns, hrows, heven]
    exact exists_block hdw (by omega) (Int.natCast_nonneg a) hlast

theorem sizes_of_createsCa (hw : IsInt width) (hh : IsInt height)
    (hcreates : CreatesCa width height) : IsInt (caWidth width / 8 * caHeight height) ∧
      (Refused (caBytes width height) ∨
        4 ∣ caHeight height ∧ caWidth width * caHeight height ≤ 2 ^ 31) := by
  have hint : IsInt (caWidth width / 8 * caHeight height) := by
    by_contra hint
    have hfault := hcreates.runs (pdpPacketSetup [] fun _ => none) _ (newCa_undefined hint _)
    cases hfault
  refine ⟨hint, or_iff_not_imp_left.mpr fun hrefused => ?_⟩
  obtain ⟨-, -, hlt⟩ := bytes_eq hw hh hint
  obtain ⟨q, hq⟩ := exists_madeCa hw hh hint (fitting_of_not_refused hlt hrefused)
  obtain ⟨-, hqh, -, -⟩ := sizes_of_madeCa hw hh hq
  obtain ⟨-, -, hdvd, -, -⟩ := hcreates.rounded q hq
  have hne : (stepping q).packet0 ≠ (stepping q).packet1 := Int.zero_ne_one
  have hstep := hcreates.within q q hq hq (stepping q) hne ⟨rfl, rfl, rfl⟩ ⟨rfl, rfl, rfl⟩
  obtain ⟨-, hshift⟩ := Ca.isInt_of_within rfl hstep
  have hoffset := shift_of_madeCa hw hh hq
  obtain ⟨⟨k, hk⟩, -⟩ := rounded hw hh
  refine ⟨by rw [← hqh]; exact_mod_cast hdvd, ?_⟩
  have hshift' : caWidth width * caHeight height - 16 < 2 ^ 31 := by
    rw [← hoffset]
    exact hshift
  rw [hk, Int.mul_assoc] at hshift' ⊢
  omega

end Sizes

/-- A height of five rows stays as it is. -/
theorem not_createsCa_five : ¬CreatesCa 64 5 := by
  intro hcreates
  obtain ⟨-, hsize⟩ := sizes_of_createsCa (by decide) (by decide) hcreates
  revert hsize
  decide +kernel

/-- The constructor keeps the promise exactly for these sizes: the bytes of its packet are an
`int`, and either the pool refuses so many of them, or four divides the rows and the cells fit
the numbers of a step. -/
theorem createsCa_iff (width height : Int) (hw : IsInt width) (hh : IsInt height) :
    CreatesCa width height ↔ IsInt (caWidth width / 8 * caHeight height) ∧
      (Refused (caBytes width height) ∨
        4 ∣ caHeight height ∧ caWidth width * caHeight height ≤ 2 ^ 31) :=
  ⟨sizes_of_createsCa hw hh, fun ⟨hint, hsize⟩ => createsCa_of hw hh hint hsize⟩

theorem createsCa_standard : CreatesCa 70 48 :=
  (createsCa_iff 70 48 (by decide) (by decide)).mpr (by decide +kernel)

end PureDataPacket
