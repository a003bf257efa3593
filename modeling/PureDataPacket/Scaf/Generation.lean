/-
# `PureDataPacket.Scaf.Generation` — what a step does to the cells

The four kinds of blocks are one kind when rows and columns are taken modulo the
dimensions (`torusBlock`).  The blocks cover the packet, no block spoils the words of
another one, and so each new cell is the rule applied to nine old ones: those to the right
of it and below it, 15 columns further on.

| | |
| :-- | :-- |
| `CaPacket.WellFormed` | the packets that automata have |
| `getLsbD_window` | what a rule sees |
| `wordDone_processBlock` | a block makes its two words new and leaves the others |
| `Stepped` | what a step with a rule that computes `f` does |
-/
import Mathlib.Tactic.Ring
import PureDataPacket.Scaf.Automaton

namespace PureDataPacket

/-! ## Rows and columns -/

theorem ediv_row {w q x : Int} (hx : 0 ≤ x) (hxw : x < w) : (q * w + x) / w = q := by
  rw [Int.add_comm, Int.add_mul_ediv_right _ _ (by omega), Int.ediv_eq_zero_of_lt hx hxw,
    Int.zero_add]

theorem emod_row {w q x : Int} (hx : 0 ≤ x) (hxw : x < w) : (q * w + x) % w = x := by
  rw [Int.add_comm, Int.add_mul_emod_self_right, Int.emod_eq_of_lt hx hxw]

theorem row_lt {w h q x : Int} (hq : q < h) (hxw : x < w) (hw : 0 < w) : q * w + x < w * h := by
  have hle : (q + 1) * w ≤ h * w := Int.mul_le_mul_of_nonneg_right (by omega) (by omega)
  rw [Int.add_mul, Int.mul_comm h w] at hle
  omega

/-! ## The blocks of a torus -/

/-- The block in column `i` and row `y`. -/
def torusBlock (dwwidth height i y : Int) : Block where
  env := [0, 1, 2, 3].flatMap fun row : Int =>
    [(y + row) % height * dwwidth + i % dwwidth, (y + row) % height * dwwidth + (i + 1) % dwwidth]
  dst := y * dwwidth + i

section Kinds

variable {dwwidth height i y : Int}

/-- The words that a block loads, when it is known which rows and columns they are in. -/
theorem env_torusBlock {y₂ y₃ i₁ : Int} (hi : 0 ≤ i) (hidw : i < dwwidth)
    (hi₁ : (i + 1) % dwwidth = i₁) (hy : 0 ≤ y) (hyh : y + 1 < height)
    (hy₂ : (y + 2) % height = y₂) (hy₃ : (y + 3) % height = y₃) :
    (torusBlock dwwidth height i y).env =
      [y * dwwidth + i, y * dwwidth + i₁, (y + 1) * dwwidth + i, (y + 1) * dwwidth + i₁,
        y₂ * dwwidth + i, y₂ * dwwidth + i₁, y₃ * dwwidth + i, y₃ * dwwidth + i₁] := by
  have hi₀ : i % dwwidth = i := Int.emod_eq_of_lt hi hidw
  have hy₀ : (y + 0) % height = y := by
    rw [Int.add_zero]
    exact Int.emod_eq_of_lt hy (by omega)
  have hy₁ : (y + 1) % height = y + 1 := Int.emod_eq_of_lt (by omega) hyh
  simp only [torusBlock, List.flatMap_cons, List.flatMap_nil, List.cons_append, List.nil_append,
    hi₀, hi₁, hy₀, hy₁, hy₂, hy₃]

theorem innerBlock_eq (hi : 0 ≤ i) (hidw : i < dwwidth - 1) (hy : 0 ≤ y) (hyh : y + 3 < height) :
    innerBlock dwwidth i (y * dwwidth) = torusBlock dwwidth height i y := by
  have henv := env_torusBlock hi (show i < dwwidth by omega) (Int.emod_eq_of_lt (by omega) (by omega)) hy
    (show y + 1 < height by omega) (Int.emod_eq_of_lt (by omega) (by omega))
    (Int.emod_eq_of_lt (by omega) hyh)
  refine Block.ext ?_ (Int.add_comm i _)
  rw [henv]
  unfold innerBlock
  ring_nf

theorem lastColumnBlock_eq (hdw : 0 < dwwidth) (hy : 0 ≤ y) (hyh : y + 3 < height) :
    lastColumnBlock dwwidth (dwwidth - 1) (y * dwwidth) =
      torusBlock dwwidth height (dwwidth - 1) y := by
  have hwrap : (dwwidth - 1 + 1) % dwwidth = 0 := by
    rw [Int.sub_add_cancel, Int.emod_self]
  have henv := env_torusBlock (i := dwwidth - 1) (by omega) (by omega) hwrap hy
    (show y + 1 < height by omega) (Int.emod_eq_of_lt (by omega) (by omega))
    (Int.emod_eq_of_lt (by omega) hyh)
  refine Block.ext ?_ (Int.add_comm _ _)
  rw [henv]
  unfold lastColumnBlock
  ring_nf

theorem lastRow_wraps (hh : 4 ≤ height) :
    (height - 2 + 2) % height = 0 ∧ (height - 2 + 3) % height = 1 := by
  constructor
  · rw [Int.sub_add_cancel, Int.emod_self]
  · have hsplit : height - 2 + 3 = 1 + height := by omega
    rw [hsplit, Int.add_emod_right]
    exact Int.emod_eq_of_lt (by omega) (by omega)

theorem lastRowBlock_eq (hi : 0 ≤ i) (hidw : i < dwwidth - 1) (hh : 4 ≤ height) :
    lastRowBlock dwwidth i ((height - 2) * dwwidth) =
      torusBlock dwwidth height i (height - 2) := by
  obtain ⟨h2, h3⟩ := lastRow_wraps hh
  have henv := env_torusBlock hi (show i < dwwidth by omega) (Int.emod_eq_of_lt (by omega) (by omega))
    (show 0 ≤ height - 2 by omega) (by omega) h2 h3
  refine Block.ext ?_ (Int.add_comm i _)
  rw [henv]
  unfold lastRowBlock
  ring_nf

theorem cornerBlock_eq (hdw : 0 < dwwidth) (hh : 4 ≤ height) :
    cornerBlock dwwidth (dwwidth - 1) ((height - 2) * dwwidth) =
      torusBlock dwwidth height (dwwidth - 1) (height - 2) := by
  obtain ⟨h2, h3⟩ := lastRow_wraps hh
  have hwrap : (dwwidth - 1 + 1) % dwwidth = 0 := by
    rw [Int.sub_add_cancel, Int.emod_self]
  have henv := env_torusBlock (i := dwwidth - 1) (by omega) (by omega) hwrap
    (show 0 ≤ height - 2 by omega) (by omega) h2 h3
  refine Block.ext ?_ (Int.add_comm _ _)
  rw [henv]
  unfold cornerBlock
  ring_nf

end Kinds

theorem mem_blocks {dwwidth n : Int} (hdw : 0 < dwwidth) (hn : 2 ≤ n) (b : Block) :
    b ∈ blocks dwwidth (2 * n) ↔ ∃ q i, 0 ≤ q ∧ q < n ∧ 0 ≤ i ∧ i < dwwidth ∧
      b = torusBlock dwwidth (2 * n) i (2 * q) := by
  have hcolumn : after 0 (dwwidth - 1) 1 = dwwidth - 1 := after_one (by omega)
  have hrow : after 0 (dwwidth * (2 * n - 2)) (2 * dwwidth) = (2 * n - 2) * dwwidth := by
    have := after_of_mul 0 (show 0 < 2 * dwwidth by omega) (n - 1).toNat
    rw [Int.toNat_of_nonneg (by omega), Int.zero_add] at this
    have hmul : 2 * dwwidth * (n - 1) = dwwidth * (2 * n - 2) := by ring
    rw [hmul] at this
    rw [this, Int.mul_comm]
  have hrows : ∀ j, j ∈ counter 0 (dwwidth * (2 * n - 2)) (2 * dwwidth) ↔
      ∃ q, 0 ≤ q ∧ q < n - 1 ∧ j = 2 * q * dwwidth := by
    intro j
    rw [mem_counter (by omega)]
    have hlt : ∀ q : Int, 2 * q * dwwidth < dwwidth * (2 * n - 2) ↔ q < n - 1 := by
      intro q
      have hl : 2 * q * dwwidth = 2 * dwwidth * q := by ring
      have hr : dwwidth * (2 * n - 2) = 2 * dwwidth * (n - 1) := by ring
      rw [hl, hr, Int.mul_lt_mul_left (by omega)]
    constructor
    · rintro ⟨k, hj, hk⟩
      have hjk : j = 2 * k * dwwidth := by
        rw [hj]
        ring
      rw [hjk] at hk
      exact ⟨k, Int.natCast_nonneg k, (hlt k).mp hk, hjk⟩
    · rintro ⟨q, hq, hqn, rfl⟩
      refine ⟨q.toNat, ?_, (hlt q).mpr hqn⟩
      rw [Int.toNat_of_nonneg hq]
      ring
  simp only [blocks, hcolumn, hrow, List.mem_append, List.mem_flatMap, List.mem_map, hrows,
    mem_counter_one, List.mem_singleton]
  constructor
  · rintro ((⟨j, ⟨q, hq, hqn, rfl⟩, ⟨i, ⟨hi, hidw⟩, rfl⟩ | rfl⟩ | ⟨i, ⟨hi, hidw⟩, rfl⟩) | rfl)
    · exact ⟨q, i, hq, by omega, hi, by omega,
        innerBlock_eq hi hidw (by omega) (by omega)⟩
    · exact ⟨q, dwwidth - 1, hq, by omega, by omega, by omega,
        lastColumnBlock_eq hdw (by omega) (by omega)⟩
    · exact ⟨n - 1, i, by omega, by omega, hi, by omega, by
        rw [lastRowBlock_eq hi hidw (by omega), Int.mul_sub, Int.mul_one]⟩
    · exact ⟨n - 1, dwwidth - 1, by omega, by omega, by omega, by omega, by
        rw [cornerBlock_eq hdw (by omega), Int.mul_sub, Int.mul_one]⟩
  · rintro ⟨q, i, hq, hqn, hi, hidw, rfl⟩
    by_cases hlast : i = dwwidth - 1
    · subst hlast
      by_cases hq' : q = n - 1
      · subst hq'
        refine Or.inr ?_
        rw [cornerBlock_eq hdw (by omega), Int.mul_sub, Int.mul_one]
      · refine Or.inl (Or.inl ⟨_, ⟨q, hq, by omega, rfl⟩, Or.inr ?_⟩)
        exact (lastColumnBlock_eq hdw (by omega) (by omega)).symm
    · by_cases hq' : q = n - 1
      · subst hq'
        refine Or.inl (Or.inr ⟨i, ⟨hi, by omega⟩, ?_⟩)
        rw [lastRowBlock_eq hi (by omega) (by omega), Int.mul_sub, Int.mul_one]
      · refine Or.inl (Or.inl ⟨_, ⟨q, hq, by omega, rfl⟩, Or.inl ⟨i, ⟨hi, by omega⟩, ?_⟩⟩)
        exact innerBlock_eq hi (by omega) (by omega) (by omega)

/-- Each word is in one of the two rows that some block stores. -/
theorem exists_block {dwwidth n a : Int} (hdw : 0 < dwwidth) (hn : 2 ≤ n) (ha : 0 ≤ a)
    (hah : a < dwwidth * (2 * n)) :
    ∃ b ∈ blocks dwwidth (2 * n), a = b.dst ∨ a = b.dst + dwwidth := by
  have hrow : 0 ≤ a / dwwidth := Int.ediv_nonneg ha (by omega)
  have hrowh : a / dwwidth < 2 * n := Int.ediv_lt_of_lt_mul hdw (by rw [Int.mul_comm]; exact hah)
  have hcolumn : 0 ≤ a % dwwidth := Int.emod_nonneg a (by omega)
  have hcolumnw : a % dwwidth < dwwidth := Int.emod_lt_of_pos a hdw
  have hsplit : a = a / dwwidth * dwwidth + a % dwwidth := (Int.ediv_mul_add_emod a dwwidth).symm
  refine ⟨torusBlock dwwidth (2 * n) (a % dwwidth) (2 * (a / dwwidth / 2)),
    (mem_blocks hdw hn _).mpr ⟨_, _, by omega, by omega, hcolumn, hcolumnw, rfl⟩, ?_⟩
  by_cases heven : a / dwwidth % 2 = 0
  · have hrow₂ : 2 * (a / dwwidth / 2) = a / dwwidth := by omega
    left
    rw [hrow₂]
    exact hsplit
  · have hrow₂ : 2 * (a / dwwidth / 2) = a / dwwidth - 1 := by omega
    right
    rw [hrow₂]
    show a = (a / dwwidth - 1) * dwwidth + a % dwwidth + dwwidth
    rw [Int.sub_mul]
    omega

/-! ## The cells of a window -/

/-- Cell `n`: rows follow each other. -/
def CaPacket.cell (p : CaPacket) (n : Int) : Bool := (p.data (n / 32)).getLsbD (n % 32).toNat

theorem cell_word (p : CaPacket) {a : Int} {k : Nat} (hk : k < 32) :
    p.cell (32 * a + k) = (p.data a).getLsbD k := by
  have hword : (32 * a + k) / 32 = a := by omega
  have hbit : ((32 * a + k : Int) % 32).toNat = k := by omega
  unfold CaPacket.cell
  rw [hword, hbit]

section Window

variable {x : Ca} {dwwidth height i y : Int}

theorem loadEnv_torusBlock {row : Nat} (hrow : row < 4) :
    x.loadEnv (torusBlock dwwidth height i y) (2 * row) =
        x.data0 ((y + row) % height * dwwidth + i % dwwidth) ∧
      x.loadEnv (torusBlock dwwidth height i y) (2 * row + 1) =
        x.data0 ((y + row) % height * dwwidth + (i + 1) % dwwidth) := by
  match row, hrow with
  | 0, _ => exact ⟨rfl, rfl⟩
  | 1, _ => exact ⟨rfl, rfl⟩
  | 2, _ => exact ⟨rfl, rfl⟩
  | 3, _ => exact ⟨rfl, rfl⟩

/-- Two words that follow each other in a row are 64 of its cells, from column `32 * i` on. -/
theorem getLsbD_row {m : Mmx} {p : CaPacket} {r : Int} {row : Nat}
    (hlow : m.env (2 * row) = p.data (r * dwwidth + i % dwwidth))
    (hhigh : m.env (2 * row + 1) = p.data (r * dwwidth + (i + 1) % dwwidth))
    (hi : 0 ≤ i) (hidw : i < dwwidth) {k : Nat} (hk : k < 64) :
    (m.load (8 * row)).getLsbD k =
      p.cell (r * (32 * dwwidth) + (32 * i + k) % (32 * dwwidth)) := by
  rw [Mmx.getLsbD_load]
  split
  · next hlt =>
      have hcolumn : (32 * i + k) % (32 * dwwidth) = 32 * i + k :=
        Int.emod_eq_of_lt (by omega) (by omega)
      have hcell : r * (32 * dwwidth) + (32 * i + k) = 32 * (r * dwwidth + i) + k := by ring
      rw [hcolumn, hcell, cell_word _ hlt, hlow, Int.emod_eq_of_lt hi hidw]
  · next hge =>
      have hcolumn : (32 * i + k) % (32 * dwwidth) = 32 * ((i + 1) % dwwidth) + (k - 32 : Nat) := by
        by_cases hlast : i + 1 < dwwidth
        · rw [Int.emod_eq_of_lt (by omega) hlast, Int.emod_eq_of_lt (by omega) (by omega)]
          omega
        · have hi' : i + 1 = dwwidth := by omega
          have hsplit : 32 * i + k = (k - 32 : Nat) + 32 * dwwidth := by omega
          rw [hi', Int.emod_self, hsplit, Int.add_emod_right, Int.emod_eq_of_lt (by omega) (by omega)]
          omega
      have hcell : r * (32 * dwwidth) + (32 * ((i + 1) % dwwidth) + (k - 32 : Nat)) =
          32 * (r * dwwidth + (i + 1) % dwwidth) + (k - 32 : Nat) := by ring
      rw [hcolumn, hcell, cell_word _ (by omega), hhigh]

/-- A row of the window is 64 cells of a row of the packet, from column `32 * i` on. -/
theorem getLsbD_window {m : Mmx} (henv : m.env = x.loadEnv (torusBlock dwwidth height i y))
    (hi : 0 ≤ i) (hidw : i < dwwidth) {row : Nat} (hrow : row < 4) {k : Nat} (hk : k < 64) :
    (m.load (8 * row)).getLsbD k = (x.packets x.packet0).cell
      ((y + row) % height * (32 * dwwidth) + (32 * i + k) % (32 * dwwidth)) := by
  obtain ⟨hlow, hhigh⟩ := loadEnv_torusBlock (x := x) (i := i) (y := y) hrow
  rw [← henv] at hlow hhigh
  exact getLsbD_row hlow hhigh hi hidw hk

end Window

/-! ## One block -/

/-- The rule, applied to the nine cells to the right and below. -/
def CaPacket.newCell (p : CaPacket) (f : (Fin 3 → Fin 3 → Bool) → Bool) (w h y x : Int) : Bool :=
  f fun row column => p.cell ((y + row) % h * w + (x + (15 + column)) % w)

section OneBlock

variable {rule : Mmx → Mmx} {f : (Fin 3 → Fin 3 → Bool) → Bool} {x : Ca}
  {dwwidth height i y : Int}

/-- The words that a block stores. -/
def Ca.blockResult (rule : Mmx → Mmx) (x : Ca) (b : Block) : BitVec 64 :=
  (Mmx.scafFeeder rule x.tos { x.mmx with env := x.loadEnv b }).1

theorem getLsbD_blockResult (hrule : ComputesRule rule f) (hi : 0 ≤ i) (hidw : i < dwwidth)
    {k : Nat} (hk : k < 64) :
    (x.blockResult rule (torusBlock dwwidth height i y)).getLsbD k =
      (x.packets x.packet0).newCell f (32 * dwwidth) height (y + (k / 32 : Nat))
        (32 * i + (k % 32 : Nat)) := by
  unfold Ca.blockResult CaPacket.newCell
  rw [(Mmx.scafFeeder_spec hrule _ _).2 k hk]
  congr 1
  funext row column
  rw [Mmx.getLsbD_word _ _ column.isLt hk]
  split
  · next hlt =>
      rw [getLsbD_window rfl hi hidw (by omega) (by omega), Nat.div_eq_of_lt hlt,
        Nat.mod_eq_of_lt hlt]
      push_cast
      ring_nf
  · next hge =>
      have hdiv : k / 32 = 1 := by omega
      have hmod : k % 32 = k - 32 := by omega
      rw [getLsbD_window rfl hi hidw (by omega) (by omega), hdiv, hmod]
      push_cast
      ring_nf

end OneBlock

namespace Ca

/-- Only the data of `packet1` and what the rule runs on may differ. -/
structure Keeps (x s : Ca) : Prop where
  packet0 : s.packet0 = x.packet0
  packet1 : s.packet1 = x.packet1
  caRoutine : s.caRoutine = x.caRoutine
  tos : s.tos = x.tos
  others : ∀ p, p ≠ x.packet1 → s.packets p = x.packets p
  header1 : ∃ d, s.header1 = { x.header1 with data := d }

theorem Keeps.refl (x : Ca) : Keeps x x := ⟨rfl, rfl, rfl, rfl, fun _ _ => rfl, ⟨_, rfl⟩⟩

theorem header1_setHeader1 (x : Ca) (p : CaPacket) : (x.setHeader1 p).header1 = p := by
  simp [setHeader1, header1]

theorem data1_setData1 (x : Ca) (i : Int) (v : BitVec 32) :
    (x.setData1 i v).header1.data = Function.update x.header1.data i v := by
  unfold setData1
  rw [header1_setHeader1]

theorem Keeps.setData1 {x s : Ca} (h : Keeps x s) (i : Int) (v : BitVec 32) :
    Keeps x (s.setData1 i v) where
  packet0 := h.packet0
  packet1 := h.packet1
  caRoutine := h.caRoutine
  tos := h.tos
  others := by
    intro p hp
    refine (Function.update_of_ne ?_ _ _).trans (h.others p hp)
    rw [h.packet1]
    exact hp
  header1 := by
    obtain ⟨d, hd⟩ := h.header1
    unfold Ca.setData1
    rw [header1_setHeader1, hd]
    exact ⟨_, rfl⟩

theorem Keeps.run {x s : Ca} (h : Keeps x s) (saved : Int) (m : Mmx) :
    Keeps x { s with saved := saved, mmx := m } :=
  ⟨h.packet0, h.packet1, h.caRoutine, h.tos, h.others, h.header1⟩

theorem Keeps.processBlock {x s : Ca} (h : Keeps x s) (rule : Mmx → Mmx) (dwwidth : Int)
    (b : Block) : Keeps x (processBlock rule dwwidth s b) :=
  ((h.run _ _).setData1 _ _).setData1 _ _

/-- What is in `data1` after a block. -/
theorem data1_processBlock (rule : Mmx → Mmx) (dwwidth : Int) (s : Ca) (b : Block) :
    (processBlock rule dwwidth s b).header1.data =
      Function.update (Function.update s.header1.data b.dst ((s.blockResult rule b).setWidth 32))
        (b.dst + dwwidth) ((s.blockResult rule b >>> 32).setWidth 32) := by
  unfold processBlock
  rw [data1_setData1, data1_setData1]
  rfl

/-- The words of `packet1` are new. -/
def WordDone (f : (Fin 3 → Fin 3 → Bool) → Bool) (dwwidth height : Int) (p : CaPacket) (s : Ca)
    (a : Int) : Prop :=
  ∀ k < 32, (s.header1.data a).getLsbD k =
    p.newCell f (32 * dwwidth) height (a / dwwidth) (32 * (a % dwwidth) + k)

section Sweep

variable {rule : Mmx → Mmx} {f : (Fin 3 → Fin 3 → Bool) → Bool} {x : Ca} {dwwidth height : Int}

theorem wordDone_processBlock (hrule : ComputesRule rule f) (hne : x.packet0 ≠ x.packet1) {s : Ca}
    (hs : Keeps x s) {i y : Int} (hi : 0 ≤ i) (hidw : i < dwwidth) {a : Int}
    (ha : WordDone f dwwidth height (x.packets x.packet0) s a ∨ a = y * dwwidth + i ∨
      a = y * dwwidth + i + dwwidth) :
    WordDone f dwwidth height (x.packets x.packet0)
      (s.processBlock rule dwwidth (torusBlock dwwidth height i y)) a := by
  have hpacket : s.packets s.packet0 = x.packets x.packet0 := by
    rw [hs.packet0]
    exact hs.others _ hne
  intro k hk
  rw [data1_processBlock]
  have hdst : (torusBlock dwwidth height i y).dst = y * dwwidth + i := rfl
  by_cases hhigh : a = y * dwwidth + i + dwwidth
  · have hword : a = (y + 1) * dwwidth + i := by
      rw [hhigh]
      ring
    have hlane : (s.blockResult rule (torusBlock dwwidth height i y)).getLsbD (32 + k) = _ :=
      getLsbD_blockResult hrule hi hidw (by omega)
    have hdiv : (32 + k) / 32 = 1 := by omega
    have hmod : (32 + k) % 32 = k := by omega
    rw [hdst, ← hhigh, Function.update_self, BitVec.getLsbD_setWidth, BitVec.getLsbD_ushiftRight,
      hlane, hpacket, hdiv, hmod, hword, ediv_row hi hidw, emod_row hi hidw]
    simp [hk]
  · rw [hdst, Function.update_of_ne hhigh]
    by_cases hlow : a = y * dwwidth + i
    · have hlane : (s.blockResult rule (torusBlock dwwidth height i y)).getLsbD k = _ :=
        getLsbD_blockResult hrule hi hidw (by omega)
      rw [hlow, Function.update_self, BitVec.getLsbD_setWidth, hlane, hpacket,
        Nat.div_eq_of_lt hk, Nat.mod_eq_of_lt hk, ediv_row hi hidw, emod_row hi hidw]
      simp [hk]
    · rw [Function.update_of_ne hlow]
      have hdone := ha.resolve_right fun h => h.elim hlow hhigh
      exact hdone k hk

theorem wordDone_blocks {n : Int} (hrule : ComputesRule rule f) (hne : x.packet0 ≠ x.packet1)
    (hdw : 0 < dwwidth) (hn : 2 ≤ n) :
    Keeps x ((blocks dwwidth (2 * n)).foldl (processBlock rule dwwidth) x) ∧
      ((blocks dwwidth (2 * n)).foldl (processBlock rule dwwidth) x).saved = x.tos ∧
      ∀ a, 0 ≤ a → a < dwwidth * (2 * n) → WordDone f dwwidth (2 * n) (x.packets x.packet0)
        ((blocks dwwidth (2 * n)).foldl (processBlock rule dwwidth) x) a := by
  obtain ⟨hkeeps, hgoals⟩ := sweep (processBlock rule dwwidth) (Keeps x)
    (fun b s => s.saved = x.tos ∧
      WordDone f dwwidth (2 * n) (x.packets x.packet0) s b.dst ∧
      WordDone f dwwidth (2 * n) (x.packets x.packet0) s (b.dst + dwwidth))
    (blocks dwwidth (2 * n))
    (fun s hs b _ => hs.processBlock rule dwwidth b) (fun s hs b hb => by
      obtain ⟨q, i, _, _, hi, hidw, rfl⟩ := (mem_blocks hdw hn b).mp hb
      refine ⟨?_, wordDone_processBlock hrule hne hs hi hidw (Or.inr (Or.inl rfl)),
        wordDone_processBlock hrule hne hs hi hidw (Or.inr (Or.inr rfl))⟩
      exact ((Mmx.scafFeeder_spec hrule _ _).1).trans hs.tos) (fun s hs b hb b' _ hdone => by
      obtain ⟨q, i, _, _, hi, hidw, rfl⟩ := (mem_blocks hdw hn b).mp hb
      refine ⟨?_, wordDone_processBlock hrule hne hs hi hidw (Or.inl hdone.2.1),
        wordDone_processBlock hrule hne hs hi hidw (Or.inl hdone.2.2)⟩
      exact ((Mmx.scafFeeder_spec hrule _ _).1).trans hs.tos) (Keeps.refl x)
  obtain ⟨b, hb, -⟩ := exists_block hdw hn (le_refl 0) (Int.mul_pos hdw (by omega))
  refine ⟨hkeeps, (hgoals b hb).1, ?_⟩
  intro a ha hah
  obtain ⟨b, hb, rfl | rfl⟩ := exists_block hdw hn ha hah
  · exact (hgoals b hb).2.1
  · exact (hgoals b hb).2.2

end Sweep

end Ca

/-! ## The step -/

/-- The packets that automata have: 64 columns or more, an even number of rows, an offset
inside the packet and at a multiple of 16 columns, and no more cells than an `int` counts. -/
structure CaPacket.WellFormed (p : CaPacket) : Prop where
  width_pos : 0 < p.width
  width_dvd : 64 ∣ p.width
  height_le : 4 ≤ p.height
  height_dvd : 2 ∣ p.height
  area_lt : p.width * p.height < 2 ^ 31
  offset_lt : p.offset < p.width * p.height
  offset_dvd : 16 ∣ p.offset % p.width

namespace CaPacket.WellFormed

variable {p : CaPacket}

theorem width_le (h : p.WellFormed) : 4 * p.width ≤ p.width * p.height := by
  rw [Nat.mul_comm]
  exact Nat.mul_le_mul_left p.width h.height_le

theorem toInt32_width (h : p.WellFormed) : toInt32 p.width = p.width := by
  have := h.width_le
  have := h.area_lt
  exact toInt32_of_nat_lt (by omega)

theorem toInt32_height (h : p.WellFormed) : toInt32 p.height = p.height := by
  have hle : 1 * p.height ≤ p.width * p.height := Nat.mul_le_mul_right _ h.width_pos
  have := h.area_lt
  exact toInt32_of_nat_lt (by omega)

theorem toInt32_offset (h : p.WellFormed) : toInt32 p.offset = p.offset := by
  have := h.offset_lt
  have := h.area_lt
  exact toInt32_of_nat_lt (by omega)

end CaPacket.WellFormed

namespace Ca

/-- What a step with a rule that computes `f` does. -/
structure Stepped (f : (Fin 3 → Fin 3 → Bool) → Bool) (x s : Ca) : Prop where
  packet0 : s.packet0 = x.packet0
  packet1 : s.packet1 = x.packet1
  caRoutine : s.caRoutine = x.caRoutine
  kept : s.packets x.packet0 = x.packets x.packet0
  width : s.header1.width = x.header1.width
  height : s.header1.height = x.header1.height
  offset : s.header1.offset = ofInt32 (shiftOffset (x.packets x.packet0).width
    (x.packets x.packet0).height (x.packets x.packet0).offset)
  cells : ∀ row column : Int, 0 ≤ row → row < (x.packets x.packet0).height → 0 ≤ column →
    column < (x.packets x.packet0).width →
      s.header1.cell (row * (x.packets x.packet0).width + column) =
        (x.packets x.packet0).newCell f (x.packets x.packet0).width (x.packets x.packet0).height
          row column

theorem stepped_processCa2D {x : Ca} {rule : Mmx → Mmx} {f : (Fin 3 → Fin 3 → Bool) → Bool}
    (hx : x.caRoutine = some rule) (hrule : ComputesRule rule f) (hne : x.packet0 ≠ x.packet1)
    (hp : (x.packets x.packet0).WellFormed) : Stepped f x x.processCa2D := by
  obtain ⟨p, hpacket⟩ : ∃ p, p = x.packets x.packet0 := ⟨_, rfl⟩
  rw [← hpacket] at hp
  obtain ⟨x', hx'⟩ : ∃ x' : Ca, x' = x.setHeader1 { x.header1 with
      offset := ofInt32 (shiftOffset p.width p.height p.offset) } := ⟨_, rfl⟩
  have hpacket' : x'.packets x'.packet0 = p := by
    rw [hx', hpacket]
    exact Function.update_of_ne hne _ _
  obtain ⟨m, hm⟩ := hp.width_dvd
  obtain ⟨n, hn⟩ := hp.height_dvd
  have hmpos : 0 < m := by
    have := hp.width_pos
    omega
  have hle := hp.height_le
  have hdw : (p.width : Int) / 32 = 2 * m := by omega
  have hne' : x'.packet0 ≠ x'.packet1 := by
    rw [hx']
    exact hne
  obtain ⟨hkeeps, hsaved, hdone⟩ := wordDone_blocks (x := x') (n := n) hrule hne'
    (show (0 : Int) < 2 * m by omega) (by omega)
  have hresult : x.processCa2D =
      (blocks (2 * m) (2 * n)).foldl (processBlock rule (2 * m)) x' := by
    have hheight : (p.height : Int) = 2 * n := by omega
    unfold processCa2D
    rw [hx]
    simp only [← hpacket, hp.toInt32_width, hp.toInt32_height, hp.toInt32_offset, ← hx', hdw]
    rw [hheight]
    unfold checkStack
    rw [hsaved, hkeeps.tos]
    exact if_neg fun h => h rfl
  obtain ⟨d, hheader⟩ := hkeeps.header1
  rw [← hresult] at hkeeps hheader hdone
  have hheader' : x'.header1 = { x.header1 with
      offset := ofInt32 (shiftOffset p.width p.height p.offset) } := by
    rw [hx', header1_setHeader1]
  rw [hheader'] at hheader
  refine ⟨?_, ?_, ?_, ?_, ?_, ?_, ?_, ?_⟩
  · rw [hkeeps.packet0, hx']
    rfl
  · rw [hkeeps.packet1, hx']
    rfl
  · rw [hkeeps.caRoutine, hx']
    rfl
  · rw [hx'] at hkeeps
    exact (hkeeps.others _ hne).trans (Function.update_of_ne hne _ _)
  · rw [hheader]
  · rw [hheader]
  · rw [hheader, hpacket]
  · rw [← hpacket]
    intro row column hrow hrowh hcolumn hcolumnw
    have hwidth : (p.width : Int) = 32 * (2 * m) := by omega
    have hheight : (p.height : Int) = 2 * n := by omega
    rw [hwidth] at hcolumnw ⊢
    rw [hheight] at hrowh ⊢
    have hbit : (((column % 32).toNat : Nat) : Int) = column % 32 :=
      Int.toNat_of_nonneg (by omega)
    have hcell : row * (32 * (2 * m)) + column =
        32 * (row * (2 * m) + column / 32) + ((column % 32).toNat : Nat) := by
      rw [hbit, Int.mul_left_comm]
      omega
    have hword := hdone (row * (2 * m) + column / 32) (by positivity)
      (row_lt hrowh (by omega) (by omega)) (column % 32).toNat (by omega)
    rw [hcell, cell_word _ (by omega), hword, hpacket', ediv_row (by omega) (by omega),
      emod_row (by omega) (by omega), hbit, Int.mul_ediv_add_emod]

end Ca

end PureDataPacket
