/-
# `PureDataPacket.Scaf.Rows` — automata of one dimension

A row is computed from the three rows before it, in place: the packet is a ring of rows,
and `currow` is the one that comes next.  The rule sees windows of 64 columns and computes
the 32 in the middle, so what it computes is 16 columns too far to the left; the row is
moved back afterwards, a 16-bit word at a time.

| | |
| :-- | :-- |
| `half_written` | half of a word, after a half of it is written |
| `halfword_shiftLoop` | the loop of `undoShift` |
| `cell_undoShift` | a cell is 16 columns further to the left |
-/
import PureDataPacket.Scaf.Picture

namespace PureDataPacket

/-- The object, and the row that the header of `packet0` says is next. -/
structure RowCa where
  ca : Ca
  currow : Nat

/-! ## The model -/

namespace CaPacket

/-- `usdata[i] = v`, for a `usdata` that points to 16-bit words. -/
def setHalfword (p : CaPacket) (i : Int) (v : BitVec 16) : CaPacket :=
  let s := (16 * (i % 2)).toNat
  let word := (p.data (i / 2) &&& ~~~(0xffff#32 <<< s)) ||| (v.setWidth 32 <<< s)
  { p with data := Function.update p.data (i / 2) word }

/-- The loop that undoes the shift: `n` words from `base` on. -/
def undoShift (p : CaPacket) (base n : Int) : CaPacket :=
  let temp := p.halfword (base + (n - 1))
  let p := (counter 1 n 1).reverse.foldl
    (fun p i => p.setHalfword (base + i) (p.halfword (base + (i - 1)))) p
  p.setHalfword base temp

end CaPacket

namespace Ca

variable (x : Ca)

def header0 : CaPacket := x.packets x.packet0

def setHeader0 (p : CaPacket) : Ca :=
  { x with packets := Function.update x.packets x.packet0 p }

/-- `data[i] = v`. -/
def setData0 (i : Int) (v : BitVec 32) : Ca :=
  x.setHeader0 { x.header0 with data := Function.update x.header0.data i v }

/-- Loads the words of three rows, calls `scaf_feeder` and stores the low word. -/
def processRowBlock (rule : Mmx → Mmx) (x : Ca) (b : Block) : Ca :=
  let result := Mmx.scafFeeder rule x.tos { x.mmx with env := x.loadEnv b }
  let x := { x with saved := result.2.1, mmx := result.2.2 }
  x.setData0 b.dst (result.1.setWidth 32)

end Ca

/-- The blocks of a row, in the order of the loop; the last one wraps. -/
def rowBlocks (dwwidth dwrow0 dwrow1 dwrow2 dwrow3 : Int) : List Block :=
  let last := after 0 (dwwidth - 1) 1
  ((counter 0 (dwwidth - 1) 1).map fun i =>
    ⟨[dwrow0 + i, dwrow0 + i + 1, dwrow1 + i, dwrow1 + i + 1, dwrow2 + i, dwrow2 + i + 1],
      dwrow3 + i⟩) ++
    [⟨[dwrow0 + last, dwrow0, dwrow1 + last, dwrow1, dwrow2 + last, dwrow2], dwrow3 + last⟩]

namespace RowCa

/-- Where a row starts, in words: an `int`. -/
def dwrow (width row : Int) : Option Int := (intMul row width).map (· / 32)

/-- `pdp_ca_process_ca_1D`, as long as what it computes are `int`s. -/
def processCa1D (x : RowCa) : Option RowCa :=
  let width := toInt32 x.ca.header0.width
  let height := toInt32 x.ca.header0.height
  let currow := toInt32 x.currow
  let dwwidth := width / 32
  if IsInt (currow + height) then
    (dwrow width ((currow + height - 3).tmod height)).bind fun dwrow0 =>
    (dwrow width ((currow + height - 2).tmod height)).bind fun dwrow1 =>
    (dwrow width ((currow + height - 1).tmod height)).bind fun dwrow2 =>
    (dwrow width currow).bind fun dwrow3 =>
      match x.ca.caRoutine with
      | none => some x
      | some rule =>
          let ca := (rowBlocks dwwidth dwrow0 dwrow1 dwrow2 dwrow3).foldl
            (Ca.processRowBlock rule) x.ca
          let ca := ca.setHeader0 (ca.header0.undoShift (2 * dwrow3) (2 * dwwidth))
          some ⟨ca.checkStack, ofInt32 ((currow + 1).tmod height)⟩
  else none

end RowCa

/-! ## Moving a row back -/

namespace CaPacket

theorem cell_halfword (p : CaPacket) (a : Int) :
    p.cell a = (p.halfword (a / 16)).getLsbD (a % 16).toNat := by
  have hsplit : 16 * (a / 16) + ((a % 16).toNat : Int) = a := by omega
  rw [getLsbD_halfword p _ (by omega), hsplit]

theorem half_written (d : BitVec 32) (v : BitVec 16) {s t : Nat} (hs : s = 0 ∨ s = 16)
    (ht : t = 0 ∨ t = 16) :
    (((d &&& ~~~(0xffff#32 <<< s) ||| v.setWidth 32 <<< s) >>> t).setWidth 16 : BitVec 16) =
      if t = s then v else (d >>> t).setWidth 16 := by
  have hhigh : ∀ k < 16, (0xffff0000#32).getLsbD (16 + k) = true := by decide
  have hzero : ∀ k, (hk : k < 16) → (0xffff#32)[16 + k] = false := by decide
  have hlow : ∀ k < 16, (0xffff#16).getLsbD k = true := by decide
  apply BitVec.eq_of_getLsbD_eq
  intro k hk
  have hk' : k < 32 := by omega
  rcases hs with rfl | rfl <;> rcases ht with rfl | rfl
  · simp [hk]
  · simp [hk]
    exact fun _ => hhigh k hk
  · simp [hk]
    exact fun _ => hlow k hk
  · have hk16 : 16 + k < 32 := by omega
    simp [hk, hk', hk16, hzero k hk]

/-- A 16-bit word is written; the others keep what they are. -/
theorem halfword_setHalfword (p : CaPacket) (i : Int) (v : BitVec 16) (j : Int) :
    (p.setHalfword i v).halfword j = if j = i then v else p.halfword j := by
  by_cases hword : j / 2 = i / 2
  · have hsame : (16 * (j % 2)).toNat = (16 * (i % 2)).toNat ↔ j = i := by omega
    have hhalf := half_written (p.data (i / 2)) v (s := (16 * (i % 2)).toNat)
      (t := (16 * (j % 2)).toNat) (by omega) (by omega)
    simp only [hsame] at hhalf
    unfold halfword
    rw [hword, ← hhalf]
    simp [setHalfword]
  · have hne : j ≠ i := by
      rintro rfl
      exact hword rfl
    rw [if_neg hne]
    unfold halfword
    simp only [setHalfword]
    rw [Function.update_of_ne hword]

/-- The loop of `undoShift` over the words from 1 to `n`, the last one first. -/
theorem halfword_shiftLoop (base : Int) (n : Nat) (p : CaPacket) (j : Int) :
    ((((List.range n).map fun k : Nat => 1 + 1 * (k : Int)).reverse.foldl
      (fun p i => p.setHalfword (base + i) (p.halfword (base + (i - 1)))) p).halfword j) =
      if base < j ∧ j ≤ base + n then p.halfword (j - 1) else p.halfword j := by
  induction n generalizing p with
  | zero => exact (if_neg (by omega)).symm
  | succ n ih =>
      simp only [List.range_succ, List.map_append, List.reverse_append, List.map_cons,
        List.map_nil, List.reverse_singleton, List.singleton_append, List.foldl_cons]
      rw [ih]
      simp only [halfword_setHalfword]
      -- the word that is written is behind those that are still read
      by_cases hlast : j = base + (n + 1)
      · subst hlast
        rw [if_neg (by omega), if_pos (by omega), if_pos (by omega)]
        congr 1
        omega
      · by_cases hj : base < j ∧ j ≤ base + n
        · rw [if_pos hj, if_neg (by omega), if_pos (by omega)]
        · rw [if_neg hj, if_neg (by omega), if_neg (by omega)]

/-- After the shift is undone, a 16-bit word of the row has been one further to the left. -/
theorem halfword_undoShift (p : CaPacket) (base : Int) {n : Nat} (hn : 0 < n) (j : Int) :
    (p.undoShift base n).halfword j = p.halfword
      (if base ≤ j ∧ j < base + n then base + (j - base - 1) % n else j) := by
  obtain ⟨m, rfl⟩ : ∃ m, n = m + 1 := ⟨n - 1, by omega⟩
  have hcounter : counter 1 ((m + 1 : Nat) : Int) 1 =
      (List.range m).map fun k : Nat => 1 + 1 * (k : Int) := by
    have hbound : ((m + 1 : Nat) : Int) = 1 + 1 * m := by omega
    rw [hbound]
    exact counter_of_mul 1 Int.one_pos m
  unfold undoShift
  simp only [hcounter]
  rw [halfword_setHalfword, halfword_shiftLoop]
  by_cases hfirst : j = base
  · subst hfirst
    have hlast : (j - j - 1) % ((m + 1 : Nat) : Int) = m := by
      have hsplit : j - j - 1 = (m : Int) + ((m + 1 : Nat) : Int) * (-1) := by omega
      rw [hsplit, Int.add_mul_emod_self_left]
      exact Int.emod_eq_of_lt (by omega) (by omega)
    rw [if_pos rfl, if_pos ⟨Int.le_refl _, by omega⟩, hlast]
    congr 1
    omega
  · rw [if_neg hfirst]
    by_cases hj : base < j ∧ j ≤ base + m
    · rw [if_pos hj, if_pos (by omega), Int.emod_eq_of_lt (by omega) (by omega)]
      congr 1
      omega
    · rw [if_neg hj, if_neg (by omega)]

/-- After the shift is undone, a cell of the row has been 16 columns further to the left. -/
theorem cell_undoShift (p : CaPacket) (base : Int) {n : Nat} (hn : 0 < n) (a : Int) :
    (p.undoShift base n).cell a = p.cell
      (if 16 * base ≤ a ∧ a < 16 * base + 16 * n then 16 * base + (a - 16 * base - 16) % (16 * n)
        else a) := by
  rw [cell_halfword, halfword_undoShift p base hn]
  by_cases ha : 16 * base ≤ a ∧ a < 16 * base + 16 * n
  · obtain ⟨q, hq⟩ : ∃ q, q = a / 16 - base - 1 := ⟨_, rfl⟩
    have hcolumn : (a - 16 * base - 16) % (16 * n) = 16 * (q % n) + a % 16 := by
      have hlo := Int.emod_nonneg q (show (n : Int) ≠ 0 by omega)
      have hhi := Int.emod_lt_of_pos q (show (0 : Int) < n by omega)
      have hdiv := Int.mul_ediv_add_emod q n
      have hsplit : a - 16 * base - 16 = 16 * (q % n) + a % 16 + 16 * n * (q / n) := by
        rw [Int.mul_assoc]
        omega
      rw [hsplit, Int.add_mul_emod_self_left]
      exact Int.emod_eq_of_lt (by omega) (by omega)
    have hhalf : (16 * base + (16 * (q % n) + a % 16)) / 16 = base + q % n := by omega
    have hbit : (16 * base + (16 * (q % n) + a % 16)) % 16 = a % 16 := by omega
    rw [if_pos (by omega), if_pos ha, hcolumn, cell_halfword, hhalf, hbit, hq]
  · rw [if_neg (by omega), if_neg ha, ← cell_halfword]

/-- What is not the data stays when the shift is undone. -/
theorem undoShift_header (p : CaPacket) (base n : Int) :
    ∃ d, p.undoShift base n = { p with data := d } := by
  have hloop : ∀ (l : List Int) (q : CaPacket), (∃ d, q = { p with data := d }) →
      ∃ d, l.foldl (fun p i => p.setHalfword (base + i) (p.halfword (base + (i - 1)))) q =
        { p with data := d } := by
    intro l
    induction l with
    | nil => exact fun q hq => hq
    | cons i l ih =>
        rintro q ⟨d, rfl⟩
        exact ih _ ⟨_, rfl⟩
  obtain ⟨d, hd⟩ := hloop (counter 1 n 1).reverse p ⟨_, rfl⟩
  unfold undoShift
  simp only [hd]
  exact ⟨_, rfl⟩

end CaPacket

/-! ## The blocks of a row -/

/-- The block in column `i`, for rows that start at words `r0` to `r3`. -/
def rowBlock (dwwidth r0 r1 r2 r3 i : Int) : Block where
  env := [r0 + i % dwwidth, r0 + (i + 1) % dwwidth, r1 + i % dwwidth, r1 + (i + 1) % dwwidth,
    r2 + i % dwwidth, r2 + (i + 1) % dwwidth]
  dst := r3 + i

theorem mem_rowBlocks {dwwidth : Int} (hdw : 0 < dwwidth) (r0 r1 r2 r3 : Int) (b : Block) :
    b ∈ rowBlocks dwwidth r0 r1 r2 r3 ↔
      ∃ i, 0 ≤ i ∧ i < dwwidth ∧ b = rowBlock dwwidth r0 r1 r2 r3 i := by
  have hlast : after 0 (dwwidth - 1) 1 = dwwidth - 1 := after_one (by omega)
  have hwrap : rowBlock dwwidth r0 r1 r2 r3 (dwwidth - 1) =
      ⟨[r0 + (dwwidth - 1), r0, r1 + (dwwidth - 1), r1, r2 + (dwwidth - 1), r2],
        r3 + (dwwidth - 1)⟩ := by
    have hmod : (dwwidth - 1) % dwwidth = dwwidth - 1 := Int.emod_eq_of_lt (by omega) (by omega)
    simp [rowBlock, hmod]
  have hinner : ∀ i, 0 ≤ i → i < dwwidth - 1 → rowBlock dwwidth r0 r1 r2 r3 i =
      ⟨[r0 + i, r0 + i + 1, r1 + i, r1 + i + 1, r2 + i, r2 + i + 1], r3 + i⟩ := by
    intro i hi hidw
    have hmod : i % dwwidth = i := Int.emod_eq_of_lt hi (by omega)
    have hnext : (i + 1) % dwwidth = i + 1 := Int.emod_eq_of_lt (by omega) (by omega)
    simp [rowBlock, hmod, hnext, Int.add_assoc]
  simp only [rowBlocks, hlast, List.mem_append, List.mem_map, mem_counter_one,
    List.mem_singleton, ← hwrap]
  constructor
  · rintro (⟨i, ⟨hi, hidw⟩, rfl⟩ | rfl)
    · exact ⟨i, hi, by omega, (hinner i hi hidw).symm⟩
    · exact ⟨dwwidth - 1, by omega, by omega, rfl⟩
  · rintro ⟨i, hi, hidw, rfl⟩
    by_cases hlast : i = dwwidth - 1
    · exact Or.inr (by rw [hlast])
    · exact Or.inl ⟨i, ⟨hi, by omega⟩, (hinner i hi (by omega)).symm⟩

/-- The rule, applied to cells of three rows, from 15 columns further on. -/
def CaPacket.rowCell (p : CaPacket) (f : (Fin 3 → Fin 3 → Bool) → Bool) (w : Int)
    (rows : Fin 3 → Int) (x : Int) : Bool :=
  f fun row column => p.cell (rows row * w + (x + (15 + column)) % w)

theorem getLsbD_rowResult {rule : Mmx → Mmx} {f : (Fin 3 → Fin 3 → Bool) → Bool}
    (hrule : ComputesRule rule f) (x : Ca) {dwwidth i : Int} (hi : 0 ≤ i) (hidw : i < dwwidth)
    (rows : Fin 3 → Int) (r3 : Int) {k : Nat} (hk : k < 32) :
    (x.blockResult rule (rowBlock dwwidth (rows 0 * dwwidth) (rows 1 * dwwidth)
      (rows 2 * dwwidth) r3 i)).getLsbD k =
      x.header0.rowCell f (32 * dwwidth) rows (32 * i + k) := by
  obtain ⟨b, hb⟩ : ∃ b, b = rowBlock dwwidth (rows 0 * dwwidth) (rows 1 * dwwidth)
    (rows 2 * dwwidth) r3 i := ⟨_, rfl⟩
  have henv : ∀ row : Fin 3,
      x.loadEnv b (2 * row) = x.header0.data (rows row * dwwidth + i % dwwidth) ∧
        x.loadEnv b (2 * row + 1) = x.header0.data (rows row * dwwidth + (i + 1) % dwwidth) := by
    intro row
    rw [hb]
    match row with
    | 0 => exact ⟨rfl, rfl⟩
    | 1 => exact ⟨rfl, rfl⟩
    | 2 => exact ⟨rfl, rfl⟩
  rw [← hb]
  unfold Ca.blockResult CaPacket.rowCell
  rw [(Mmx.scafFeeder_spec hrule _ _).2 k (by omega)]
  congr 1
  funext row column
  rw [Mmx.getLsbD_word _ _ column.isLt (by omega), if_pos hk,
    getLsbD_row (henv row).1 (henv row).2 hi hidw (by omega)]
  push_cast
  ring_nf

namespace Ca

/-! ## A row is computed -/

/-- Only the words from `lo` to `hi` of `packet0` and what the rule runs on may differ. -/
structure KeepsRow (x : Ca) (lo hi : Int) (s : Ca) : Prop where
  packet0 : s.packet0 = x.packet0
  packet1 : s.packet1 = x.packet1
  caRoutine : s.caRoutine = x.caRoutine
  tos : s.tos = x.tos
  others : ∀ p, p ≠ x.packet0 → s.packets p = x.packets p
  header0 : ∃ d, s.header0 = { x.header0 with data := d }
  kept : ∀ a, ¬(lo ≤ a ∧ a < hi) → s.header0.data a = x.header0.data a

theorem header0_setHeader0 (x : Ca) (p : CaPacket) : (x.setHeader0 p).header0 = p := by
  simp [setHeader0, header0]

section KeepsRow

variable {x s : Ca} {lo hi : Int}

theorem KeepsRow.refl (x : Ca) (lo hi : Int) : KeepsRow x lo hi x :=
  ⟨rfl, rfl, rfl, rfl, fun _ _ => rfl, ⟨_, rfl⟩, fun _ _ => rfl⟩

/-- A packet with other words in the row takes the place of `packet0`. -/
theorem KeepsRow.setHeader0 (h : KeepsRow x lo hi s) {p : CaPacket}
    (hp : ∃ d, p = { s.header0 with data := d })
    (hkept : ∀ a, ¬(lo ≤ a ∧ a < hi) → p.data a = s.header0.data a) :
    KeepsRow x lo hi (s.setHeader0 p) where
  packet0 := h.packet0
  packet1 := h.packet1
  caRoutine := h.caRoutine
  tos := h.tos
  others := by
    intro i hi
    refine (Function.update_of_ne ?_ _ _).trans (h.others i hi)
    rw [h.packet0]
    exact hi
  header0 := by
    obtain ⟨d, hd⟩ := h.header0
    obtain ⟨d', hd'⟩ := hp
    rw [header0_setHeader0, hd', hd]
    exact ⟨d', rfl⟩
  kept := by
    intro a ha
    rw [header0_setHeader0, hkept a ha]
    exact h.kept a ha

theorem KeepsRow.run (h : KeepsRow x lo hi s) (saved : Int) (m : Mmx) :
    KeepsRow x lo hi { s with saved := saved, mmx := m } :=
  ⟨h.packet0, h.packet1, h.caRoutine, h.tos, h.others, h.header0, h.kept⟩

theorem data0_processRowBlock (rule : Mmx → Mmx) (s : Ca) (b : Block) :
    (processRowBlock rule s b).header0.data =
      Function.update s.header0.data b.dst ((s.blockResult rule b).setWidth 32) := by
  unfold processRowBlock setData0
  rw [header0_setHeader0]
  rfl

theorem KeepsRow.processRowBlock (h : KeepsRow x lo hi s) (rule : Mmx → Mmx) {b : Block}
    (hb : lo ≤ b.dst ∧ b.dst < hi) : KeepsRow x lo hi (processRowBlock rule s b) := by
  refine (h.run _ _).setHeader0 ⟨_, rfl⟩ fun a ha => Function.update_of_ne ?_ _ _
  rintro rfl
  exact ha hb

theorem KeepsRow.cell (h : KeepsRow x lo hi s) {a : Int} (ha : ¬(lo ≤ a / 32 ∧ a / 32 < hi)) :
    s.header0.cell a = x.header0.cell a := by
  unfold CaPacket.cell
  rw [h.kept _ ha]

end KeepsRow

/-- A cell of one row is not in the words of another one. -/
theorem other_row {dwwidth r y c : Int} (hry : r ≠ y) (hc : 0 ≤ c) (hcw : c < 32 * dwwidth) :
    ¬(y * dwwidth ≤ (r * (32 * dwwidth) + c) / 32 ∧
      (r * (32 * dwwidth) + c) / 32 < y * dwwidth + dwwidth) := by
  rintro ⟨hlo, hhi⟩
  have hword : (r * (32 * dwwidth) + c) / 32 = r * dwwidth + c / 32 := by
    rw [Int.mul_left_comm]
    omega
  rw [hword] at hlo hhi
  have hr : (r * dwwidth + c / 32) / dwwidth = r := ediv_row (by omega) (by omega)
  have hy : (y * dwwidth + (r * dwwidth + c / 32 - y * dwwidth)) / dwwidth = y :=
    ediv_row (by omega) (by omega)
  have hsum : y * dwwidth + (r * dwwidth + c / 32 - y * dwwidth) = r * dwwidth + c / 32 := by
    omega
  rw [hsum, hr] at hy
  exact hry hy

/-- The word has new cells of row `y`. -/
def RowWordDone (x : Ca) (f : (Fin 3 → Fin 3 → Bool) → Bool) (dwwidth y : Int)
    (rows : Fin 3 → Int) (s : Ca) (a : Int) : Prop :=
  ∀ k < 32, (s.header0.data a).getLsbD k =
    x.header0.rowCell f (32 * dwwidth) rows (32 * (a - y * dwwidth) + k)

section Row

variable {x : Ca} {rule : Mmx → Mmx} {f : (Fin 3 → Fin 3 → Bool) → Bool} {dwwidth y : Int}
  {rows : Fin 3 → Int}

/-- A block makes its word new and leaves the others. -/
theorem rowWordDone_processRowBlock (hrule : ComputesRule rule f) (hrows : ∀ row, rows row ≠ y)
    {s : Ca} (hs : KeepsRow x (y * dwwidth) (y * dwwidth + dwwidth) s) {i : Int} (hi : 0 ≤ i)
    (hidw : i < dwwidth) {a : Int}
    (ha : RowWordDone x f dwwidth y rows s a ∨ a = y * dwwidth + i) :
    RowWordDone x f dwwidth y rows (s.processRowBlock rule (rowBlock dwwidth (rows 0 * dwwidth)
      (rows 1 * dwwidth) (rows 2 * dwwidth) (y * dwwidth) i)) a := by
  intro k hk
  have hdst : (rowBlock dwwidth (rows 0 * dwwidth) (rows 1 * dwwidth) (rows 2 * dwwidth)
      (y * dwwidth) i).dst = y * dwwidth + i := rfl
  rw [data0_processRowBlock, hdst]
  by_cases hsame : a = y * dwwidth + i
  · have hsource : s.header0.rowCell f (32 * dwwidth) rows (32 * i + k) =
        x.header0.rowCell f (32 * dwwidth) rows (32 * i + k) := by
      unfold CaPacket.rowCell
      congr 1
      funext row column
      exact hs.cell (other_row (hrows row) (Int.emod_nonneg _ (by omega))
        (Int.emod_lt_of_pos _ (by omega)))
    have hcolumn : y * dwwidth + i - y * dwwidth = i := by omega
    rw [hsame, Function.update_self, BitVec.getLsbD_setWidth,
      getLsbD_rowResult hrule s hi hidw rows _ hk, hsource, hcolumn]
    simp [hk]
  · rw [Function.update_of_ne hsame]
    exact ha.resolve_right hsame k hk

/-- The loops compute the rule of three other rows in all columns of row `y`. -/
theorem cells_rowBlocks (hrule : ComputesRule rule f) (hdw : 0 < dwwidth)
    (hrows : ∀ row, rows row ≠ y) :
    let s := (rowBlocks dwwidth (rows 0 * dwwidth) (rows 1 * dwwidth) (rows 2 * dwwidth)
      (y * dwwidth)).foldl (processRowBlock rule) x
    KeepsRow x (y * dwwidth) (y * dwwidth + dwwidth) s ∧ s.saved = x.tos ∧
      ∀ c, 0 ≤ c → c < 32 * dwwidth → s.header0.cell (y * (32 * dwwidth) + c) =
        x.header0.rowCell f (32 * dwwidth) rows c := by
  intro s
  obtain ⟨hkeeps, hgoals⟩ := sweep (processRowBlock rule)
    (KeepsRow x (y * dwwidth) (y * dwwidth + dwwidth))
    (fun b s => s.saved = x.tos ∧ RowWordDone x f dwwidth y rows s b.dst)
    (rowBlocks dwwidth (rows 0 * dwwidth) (rows 1 * dwwidth) (rows 2 * dwwidth) (y * dwwidth))
    (fun s hs b hb => by
      obtain ⟨i, hi, hidw, rfl⟩ := (mem_rowBlocks hdw _ _ _ _ b).mp hb
      exact hs.processRowBlock rule ⟨Int.le_add_of_nonneg_right hi, Int.add_lt_add_left hidw _⟩)
    (fun s hs b hb => by
      obtain ⟨i, hi, hidw, rfl⟩ := (mem_rowBlocks hdw _ _ _ _ b).mp hb
      exact ⟨((Mmx.scafFeeder_spec hrule _ _).1).trans hs.tos,
        rowWordDone_processRowBlock hrule hrows hs hi hidw (Or.inr rfl)⟩)
    (fun s hs b hb b' _ hdone => by
      obtain ⟨i, hi, hidw, rfl⟩ := (mem_rowBlocks hdw _ _ _ _ b).mp hb
      exact ⟨((Mmx.scafFeeder_spec hrule _ _).1).trans hs.tos,
        rowWordDone_processRowBlock hrule hrows hs hi hidw (Or.inl hdone.2)⟩)
    (KeepsRow.refl x _ _)
  have hblock : ∀ i, 0 ≤ i → i < dwwidth → rowBlock dwwidth (rows 0 * dwwidth)
      (rows 1 * dwwidth) (rows 2 * dwwidth) (y * dwwidth) i ∈ _ :=
    fun i hi hidw => (mem_rowBlocks hdw _ _ _ _ _).mpr ⟨i, hi, hidw, rfl⟩
  refine ⟨hkeeps, (hgoals _ (hblock 0 (by omega) hdw)).1, fun c hc hcw => ?_⟩
  have hword := (hgoals _ (hblock (c / 32) (by omega) (by omega))).2 (c % 32).toNat (by omega)
  have hbit : (((c % 32).toNat : Nat) : Int) = c % 32 := Int.toNat_of_nonneg (by omega)
  have hcell : y * (32 * dwwidth) + c = 32 * (y * dwwidth + c / 32) + ((c % 32).toNat : Nat) := by
    rw [hbit, Int.mul_left_comm]
    omega
  have hcolumn : 32 * (y * dwwidth + c / 32 - y * dwwidth) + c % 32 = c := by omega
  rw [hcell, cell_word _ (by omega)]
  refine hword.trans ?_
  show x.header0.rowCell f _ _ (32 * (y * dwwidth + c / 32 - y * dwwidth) + _) = _
  rw [hbit, hcolumn]

end Row

end Ca

/-! ## The step -/

/-- The packets of automata of one dimension: a height of 4 or more, and no more cells before
the last row than an `int` counts. -/
structure CaPacket.Rows (p : CaPacket) : Prop where
  width_pos : 0 < p.width
  width_dvd : 64 ∣ p.width
  height_le : 4 ≤ p.height
  area_lt : p.width * (p.height - 1) < 2 ^ 31

namespace CaPacket.Rows

variable {p : CaPacket}

theorem area_int (hp : p.Rows) : (p.width : Int) * ((p.height : Int) - 1) < 2 ^ 31 := by
  have hh := hp.height_le
  have h := hp.area_lt
  zify [show 1 ≤ p.height by omega] at h
  exact h

theorem toInt32_width (hp : p.Rows) : toInt32 p.width = p.width := by
  have hh := hp.height_le
  have hwide : (p.width : Int) * 3 ≤ p.width * ((p.height : Int) - 1) :=
    Int.mul_le_mul_of_nonneg_left (by omega) (by omega)
  have := hp.area_int
  exact toInt32_of_nat_lt (by omega)

theorem height_lt (hp : p.Rows) : p.height < 2 ^ 30 := by
  have hh := hp.height_le
  have hw := Nat.le_of_dvd hp.width_pos hp.width_dvd
  have htall : 64 * ((p.height : Int) - 1) ≤ p.width * ((p.height : Int) - 1) :=
    Int.mul_le_mul_of_nonneg_right (by omega) (by omega)
  have := hp.area_int
  omega

theorem toInt32_height (hp : p.Rows) : toInt32 p.height = p.height := by
  have := hp.height_lt
  exact toInt32_of_nat_lt (by omega)

end CaPacket.Rows

namespace RowCa

/-- What a step with a rule that computes `f` does. -/
structure Stepped (f : (Fin 3 → Fin 3 → Bool) → Bool) (x s : RowCa) : Prop where
  packet0 : s.ca.packet0 = x.ca.packet0
  packet1 : s.ca.packet1 = x.ca.packet1
  caRoutine : s.ca.caRoutine = x.ca.caRoutine
  others : ∀ p, p ≠ x.ca.packet0 → s.ca.packets p = x.ca.packets p
  header0 : ∃ d, s.ca.header0 = { x.ca.header0 with data := d }
  currow : s.currow = (x.currow + 1) % x.ca.header0.height
  row : ∀ column : Int, 0 ≤ column → column < x.ca.header0.width →
    s.ca.header0.cell (x.currow * x.ca.header0.width + column) =
      f fun r c => x.ca.header0.cell
        ((x.currow + x.ca.header0.height - 3 + (r : Nat) : Int) % x.ca.header0.height *
          x.ca.header0.width + (column - 1 + (c : Nat)) % x.ca.header0.width)
  kept : ∀ row column : Int, row ≠ x.currow → 0 ≤ column → column < x.ca.header0.width →
    s.ca.header0.cell (row * x.ca.header0.width + column) =
      x.ca.header0.cell (row * x.ca.header0.width + column)

/-- One of the three rows before row `currow`. -/
theorem before_ne {height currow : Int} (hh : 4 ≤ height) (hlo : 0 ≤ currow)
    (hhi : currow < height) (r : Fin 3) :
    (currow + height - 3 + (r : Nat) : Int) % height ≠ currow := by
  have hr := r.isLt
  by_cases hlow : currow - 3 + (r : Nat) < 0
  · rw [Int.emod_eq_of_lt (by omega) (by omega)]
    omega
  · have hsplit : currow + height - 3 + (r : Nat) = currow - 3 + (r : Nat) + height := by omega
    rw [hsplit, Int.add_emod_right, Int.emod_eq_of_lt (by omega) (by omega)]
    omega

theorem dwrow_eq {d height row : Int} (hd : 0 < d) (harea : 32 * d * (height - 1) < 2 ^ 31)
    (hlo : 0 ≤ row) (hhi : row < height) : dwrow (32 * d) row = some (row * d) := by
  have hle : 32 * d * row ≤ 32 * d * (height - 1) :=
    Int.mul_le_mul_of_nonneg_left (by omega) (by omega)
  have hpos : 0 ≤ 32 * d * row := Int.mul_nonneg (by omega) hlo
  have hmul : row * (32 * d) = 32 * (row * d) := Int.mul_left_comm _ _ _
  have hint : IsInt (row * (32 * d)) := by
    rw [Int.mul_comm row]
    constructor <;> omega
  have hword : 32 * (row * d) / 32 = row * d := by omega
  unfold dwrow intMul
  rw [if_pos hint, Option.map_some, hmul, hword]

theorem processCa1D_eq {x : RowCa} {rule : Mmx → Mmx} (hx : x.ca.caRoutine = some rule)
    (hp : x.ca.header0.Rows) (hrow : x.currow < x.ca.header0.height) {d : Int}
    (hd : (x.ca.header0.width : Int) = 32 * d) {rows : Fin 3 → Int}
    (hrows : ∀ r : Fin 3, rows r = (x.currow + x.ca.header0.height - 3 + (r : Nat) : Int) %
      x.ca.header0.height) :
    let ca := (rowBlocks d (rows 0 * d) (rows 1 * d) (rows 2 * d) (x.currow * d)).foldl
      (Ca.processRowBlock rule) x.ca
    x.processCa1D = some
      ⟨(ca.setHeader0 (ca.header0.undoShift (2 * (x.currow * d)) (2 * d))).checkStack,
        (x.currow + 1) % x.ca.header0.height⟩ := by
  intro ca
  obtain ⟨p, hpacket⟩ : ∃ p, p = x.ca.header0 := ⟨_, rfl⟩
  rw [← hpacket] at hp hrow hd hrows ⊢
  obtain ⟨y, hy⟩ : ∃ y : Int, y = x.currow := ⟨_, rfl⟩
  have hh := hp.height_le
  have hdpos : 0 < d := by
    have := hp.width_pos
    omega
  have harea : 32 * d * ((p.height : Int) - 1) < 2 ^ 31 := by
    rw [← hd]
    exact hp.area_int
  have htall := hp.height_lt
  have hwidth : toInt32 p.width = 32 * d := by
    rw [hp.toInt32_width, hd]
  have hheight := hp.toInt32_height
  have hcurrow : toInt32 x.currow = y := by
    rw [toInt32_of_nat_lt (by omega), hy]
  have hwords : 32 * d / 32 = d := by omega
  have hmod : ∀ n : Int, 0 ≤ n → n.tmod p.height = n % p.height :=
    fun n hn => Int.tmod_eq_emod_of_nonneg hn
  have hbefore : ∀ r : Fin 3, dwrow (32 * d) (rows r) = some (rows r * d) := by
    intro r
    rw [hrows]
    exact dwrow_eq hdpos harea (Int.emod_nonneg _ (by omega)) (Int.emod_lt_of_pos _ (by omega))
  have hrow0 : (y + p.height - 3).tmod p.height = rows 0 := by
    rw [hmod _ (by omega), hrows, hy]
    simp
  have hrow1 : (y + p.height - 2).tmod p.height = rows 1 := by
    have hsplit : y + p.height - 2 = y + p.height - 3 + ((1 : Fin 3) : Nat) := by
      show y + p.height - 2 = y + p.height - 3 + 1
      omega
    rw [hmod _ (by omega), hrows, hsplit, hy]
  have hrow2 : (y + p.height - 1).tmod p.height = rows 2 := by
    have hsplit : y + p.height - 1 = y + p.height - 3 + ((2 : Fin 3) : Nat) := by
      show y + p.height - 1 = y + p.height - 3 + 2
      omega
    rw [hmod _ (by omega), hrows, hsplit, hy]
  have hnext : ofInt32 ((y + 1).tmod p.height) = (x.currow + 1) % p.height := by
    have hcast : (y + 1).tmod p.height = (((x.currow + 1) % p.height : Nat) : Int) := by
      rw [hmod _ (by omega), hy]
      push_cast
      rfl
    have hlt := Nat.mod_lt (x.currow + 1) (show p.height > 0 by omega)
    rw [hcast]
    exact ofInt32_of_nat_lt (by omega)
  have hint : IsInt (y + p.height) := by
    constructor <;> omega
  unfold processCa1D
  simp only [← hpacket, hwidth, hheight, hcurrow, hx, hwords, if_pos hint, hrow0, hrow1, hrow2,
    hbefore, dwrow_eq hdpos harea (show 0 ≤ y by omega) (show y < p.height by omega),
    Option.bind_some, hnext]
  rw [hy]

theorem stepped_processCa1D {x : RowCa} {rule : Mmx → Mmx} {f : (Fin 3 → Fin 3 → Bool) → Bool}
    (hx : x.ca.caRoutine = some rule) (hrule : ComputesRule rule f) (hp : x.ca.header0.Rows)
    (hrow : x.currow < x.ca.header0.height) :
    ∃ s, x.processCa1D = some s ∧ Stepped f x s := by
  obtain ⟨m, hm⟩ := hp.width_dvd
  obtain ⟨d, hd⟩ : ∃ d : Int, d = 2 * m := ⟨_, rfl⟩
  have hwidth : (x.ca.header0.width : Int) = 32 * d := by omega
  have hdpos : 0 < d := by
    have := hp.width_pos
    omega
  have hh := hp.height_le
  obtain ⟨rows, hrows⟩ : ∃ rows : Fin 3 → Int, ∀ r : Fin 3, rows r =
      (x.currow + x.ca.header0.height - 3 + (r : Nat) : Int) % x.ca.header0.height :=
    ⟨_, fun _ => rfl⟩
  have hne : ∀ r, rows r ≠ x.currow := by
    intro r
    rw [hrows]
    exact before_ne (by omega) (by omega) (by omega) r
  have hresult := processCa1D_eq hx hp hrow hwidth hrows
  obtain ⟨hkeeps, hsaved, hcells⟩ := Ca.cells_rowBlocks (x := x.ca) hrule hdpos hne
  obtain ⟨ca, hca⟩ : ∃ ca, ca = (rowBlocks d (rows 0 * d) (rows 1 * d) (rows 2 * d)
    (x.currow * d)).foldl (Ca.processRowBlock rule) x.ca := ⟨_, rfl⟩
  simp only [← hca] at hresult hkeeps hsaved hcells
  have hstack : (ca.setHeader0 (ca.header0.undoShift (2 * (x.currow * d)) (2 * d))).checkStack =
      ca.setHeader0 (ca.header0.undoShift (2 * (x.currow * d)) (2 * d)) := by
    refine if_neg fun h => h ?_
    exact hsaved.trans hkeeps.tos.symm
  have hshift : ∀ a, (ca.header0.undoShift (2 * (x.currow * d)) (2 * d)).cell a = ca.header0.cell
      (if 32 * (x.currow * d) ≤ a ∧ a < 32 * (x.currow * d) + 32 * d then
        32 * (x.currow * d) + (a - 32 * (x.currow * d) - 16) % (32 * d) else a) := by
    intro a
    have h := ca.header0.cell_undoShift (2 * (x.currow * d)) (n := (2 * d).toNat) (by omega) a
    have hn : ((2 * d).toNat : Int) = 2 * d := Int.toNat_of_nonneg (by omega)
    have hrow16 : 16 * (2 * (x.currow * d)) = 32 * (x.currow * d) := by omega
    have hwidth16 : 16 * (2 * d) = 32 * d := by omega
    rw [hn, hrow16, hwidth16] at h
    exact h
  have hstart : (x.currow : Int) * (32 * d) = 32 * (x.currow * d) := Int.mul_left_comm _ _ _
  obtain ⟨p', hp'⟩ : ∃ p', p' = ca.header0.undoShift (2 * (x.currow * d)) (2 * d) := ⟨_, rfl⟩
  have hheader : (ca.setHeader0 p').header0 = p' := Ca.header0_setHeader0 _ _
  rw [hstack, ← hp'] at hresult
  simp only [← hp'] at hshift
  refine ⟨_, hresult, ?_⟩
  constructor
  · exact hkeeps.packet0
  · exact hkeeps.packet1
  · exact hkeeps.caRoutine
  · intro p hp
    refine (Function.update_of_ne ?_ _ _).trans (hkeeps.others p hp)
    rw [hkeeps.packet0]
    exact hp
  · obtain ⟨words, hwords⟩ := hkeeps.header0
    obtain ⟨words', hwords'⟩ := ca.header0.undoShift_header (2 * (x.currow * d)) (2 * d)
    show ∃ words, (ca.setHeader0 p').header0 = _
    rw [hheader, hp', hwords', hwords]
    exact ⟨words', rfl⟩
  · rfl
  · intro column hcolumn hcolumnw
    rw [hwidth] at hcolumnw ⊢
    show (ca.setHeader0 p').header0.cell _ = _
    have hback : 32 * (x.currow * d) + column - 32 * (x.currow * d) - 16 = column - 16 := by omega
    rw [hheader, hshift, hstart, if_pos (by omega), hback, ← hstart,
      hcells _ (Int.emod_nonneg _ (by omega)) (Int.emod_lt_of_pos _ (by omega))]
    unfold CaPacket.rowCell
    refine congrArg f (funext fun r => funext fun c => ?_)
    have hsum : (column - 16) % (32 * d) + (15 + ((c : Nat) : Int)) =
        15 + ((c : Nat) : Int) + (column - 16) % (32 * d) := Int.add_comm _ _
    have hleft : 15 + ((c : Nat) : Int) + (column - 16) = column - 1 + (c : Nat) := by omega
    rw [hrows, hsum, Int.add_emod_emod, hleft]
  · intro row column hother hcolumn hcolumnw
    rw [hwidth] at hcolumnw ⊢
    show (ca.setHeader0 p').header0.cell _ = _
    have houtside := Ca.other_row hother hcolumn hcolumnw
    rw [hheader, hshift, if_neg (by omega)]
    exact hkeeps.cell houtside

/-! ## All rows -/

/-- The loop of `pdp_ca_bang_thread`. -/
def iterate1D : Nat → RowCa → Option RowCa
  | 0, x => some x
  | n + 1, x => (iterate1D n x).bind processCa1D

/-- `currow = 0` and `offset = 0`. -/
def atTop (x : RowCa) : RowCa := ⟨x.ca.setHeader0 { x.ca.header0 with offset := 0 }, 0⟩

/-- `pdp_ca_bang_thread` in 1D mode. -/
def bangThread1D (iterations : Nat) (fullscreen1d : Bool) (x : RowCa) : Option RowCa :=
  if fullscreen1d then iterate1D (toInt32 x.atTop.ca.header0.height).toNat x.atTop
  else iterate1D iterations x

/-- Row `row` of `packet0` has the same cells. -/
def SameRow (x s : RowCa) (row : Int) : Prop :=
  ∀ column : Int, 0 ≤ column → column < x.ca.header0.width →
    s.ca.header0.cell (row * x.ca.header0.width + column) =
      x.ca.header0.cell (row * x.ca.header0.width + column)

/-- The states of a run from the first row on: every step is one of the rule, and a row changes
only in the step that has its number. -/
structure Overwrites (f : (Fin 3 → Fin 3 → Bool) → Bool) (x : RowCa) (run : Nat → RowCa) :
    Prop where
  start : run 0 = x
  iterate : ∀ n, iterate1D n x = some (run n)
  stepped : ∀ n, Stepped f (run n) (run (n + 1))
  currow : ∀ n, (run n).currow = n % x.ca.header0.height
  before : ∀ m < x.ca.header0.height, SameRow x (run m) m
  after : ∀ m < x.ca.header0.height, SameRow (run (m + 1)) (run x.ca.header0.height) m

/-- What a step needs, and keeps. -/
structure Ready (rule : Mmx → Mmx) (w h : Nat) (x : RowCa) : Prop where
  caRoutine : x.ca.caRoutine = some rule
  rows : x.ca.header0.Rows
  width : x.ca.header0.width = w
  height : x.ca.header0.height = h
  currow : x.currow < h

section Run

variable {x : RowCa} {rule : Mmx → Mmx} {f : (Fin 3 → Fin 3 → Bool) → Bool} {w h : Nat}

theorem Ready.step (hx : Ready rule w h x) (hrule : ComputesRule rule f) :
    ∃ s, x.processCa1D = some s ∧ Stepped f x s ∧ Ready rule w h s := by
  have hrow := hx.currow
  rw [← hx.height] at hrow
  obtain ⟨s, hs, hstepped⟩ := stepped_processCa1D hx.caRoutine hrule hx.rows hrow
  obtain ⟨words, hwords⟩ := hstepped.header0
  refine ⟨s, hs, hstepped, ?_, ?_, ?_, ?_, ?_⟩
  · exact hstepped.caRoutine.trans hx.caRoutine
  · rw [hwords]
    exact ⟨hx.rows.width_pos, hx.rows.width_dvd, hx.rows.height_le, hx.rows.area_lt⟩
  · rw [hwords]
    exact hx.width
  · rw [hwords]
    exact hx.height
  · rw [hstepped.currow, hx.height]
    exact Nat.mod_lt _ (Nat.lt_of_le_of_lt (Nat.zero_le _) hx.currow)

theorem Ready.iterate (hx : Ready rule w h x) (hrule : ComputesRule rule f) (n : Nat) :
    ∃ s, iterate1D n x = some s ∧ Ready rule w h s := by
  induction n with
  | zero => exact ⟨x, rfl, hx⟩
  | succ n ih =>
      obtain ⟨s, hs, hready⟩ := ih
      obtain ⟨s', hs', -, hready'⟩ := hready.step hrule
      refine ⟨s', ?_, hready'⟩
      show (iterate1D n x).bind processCa1D = some s'
      rw [hs, Option.bind_some, hs']

/-- A row keeps its cells in steps that are not its own. -/
theorem sameRow_run {run : Nat → RowCa} (hready : ∀ n, Ready rule w h (run n))
    (hstepped : ∀ n, Stepped f (run n) (run (n + 1))) {a b m : Nat} (hab : a ≤ b)
    (hm : ∀ n, a ≤ n → n < b → (run n).currow ≠ m) : SameRow (run a) (run b) m := by
  induction b, hab using Nat.le_induction with
  | base => exact fun _ _ _ => rfl
  | succ b hab ih =>
      intro column hcolumn hcolumnw
      have hown : (m : Int) ≠ (run b).currow := by
        have := hm b hab (Nat.lt_succ_self b)
        omega
      rw [← ih (fun n hn hnb => hm n hn (Nat.lt_succ_of_lt hnb)) column hcolumn hcolumnw]
      rw [(hready a).width] at hcolumnw ⊢
      have hkept := (hstepped b).kept m column hown hcolumn
      rw [(hready b).width] at hkept
      exact hkept hcolumnw

theorem Ready.overwrites (hx : Ready rule w h x) (hrule : ComputesRule rule f)
    (htop : x.currow = 0) : ∃ run, Overwrites f x run := by
  obtain ⟨run, hrun⟩ : ∃ run : Nat → RowCa, ∀ n, iterate1D n x = some (run n) ∧
      Ready rule w h (run n) := ⟨fun n => (hx.iterate hrule n).choose,
        fun n => (hx.iterate hrule n).choose_spec⟩
  have hstart : run 0 = x := (Option.some.inj (hrun 0).1).symm
  have hstepped : ∀ n, Stepped f (run n) (run (n + 1)) := by
    intro n
    obtain ⟨s, hs, hstep, -⟩ := (hrun n).2.step hrule
    have hnext : (iterate1D n x).bind processCa1D = some (run (n + 1)) := (hrun (n + 1)).1
    rw [(hrun n).1, Option.bind_some, hs] at hnext
    rw [← Option.some.inj hnext]
    exact hstep
  have hcurrow : ∀ n, (run n).currow = n % h := by
    intro n
    induction n with
    | zero => rw [hstart, htop, Nat.zero_mod]
    | succ n ih => rw [(hstepped n).currow, ih, (hrun n).2.height, Nat.mod_add_mod]
  have hown : ∀ n m, n < h → n ≠ m → (run n).currow ≠ m := by
    intro n m hn hne
    rw [hcurrow, Nat.mod_eq_of_lt hn]
    exact hne
  refine ⟨run, hstart, fun n => (hrun n).1, hstepped, ?_, ?_, ?_⟩
  · rw [hx.height]
    exact hcurrow
  · rw [hx.height]
    intro m hm
    have hsame := sameRow_run (fun n => (hrun n).2) hstepped (Nat.zero_le m)
      fun n _ hnm => hown n m (by omega) (by omega)
    rw [hstart] at hsame
    exact hsame
  · rw [hx.height]
    intro m hm
    exact sameRow_run (fun n => (hrun n).2) hstepped (show m + 1 ≤ h by omega)
      fun n hn hnh => hown n m hnh (by omega)

end Run

/-- In a packet with no more cells before its last row than an `int` counts, a step changes row
`currow` only, by the rule of the three rows before it, and `height` steps from the first row
on change every row once. -/
theorem processCa1D_rows {x : RowCa} {rule : Mmx → Mmx} {f : (Fin 3 → Fin 3 → Bool) → Bool}
    (hx : x.ca.caRoutine = some rule) (hrule : ComputesRule rule f) (hp : x.ca.header0.Rows)
    (hrow : x.currow < x.ca.header0.height) :
    (∃ s, x.processCa1D = some s ∧ Stepped f x s) ∧
      (x.currow = 0 → ∃ run, Overwrites f x run) ∧
      ∀ iterations, ∃ run, Overwrites f x.atTop run ∧
        x.bangThread1D iterations true = some (run x.ca.header0.height) := by
  have hready : Ready rule x.ca.header0.width x.ca.header0.height x :=
    ⟨hx, hp, rfl, rfl, hrow⟩
  refine ⟨stepped_processCa1D hx hrule hp hrow, hready.overwrites hrule, fun iterations => ?_⟩
  have htop : x.atTop.ca.header0 = { x.ca.header0 with offset := 0 } := Ca.header0_setHeader0 _ _
  have hready' : Ready rule x.ca.header0.width x.ca.header0.height x.atTop := by
    refine ⟨hx, ?_, ?_, ?_, Nat.lt_of_lt_of_le (Nat.zero_lt_succ 3) hp.height_le⟩
    · rw [htop]
      exact ⟨hp.width_pos, hp.width_dvd, hp.height_le, hp.area_lt⟩
    · rw [htop]
    · rw [htop]
  obtain ⟨run, hrun⟩ := hready'.overwrites hrule rfl
  refine ⟨run, hrun, ?_⟩
  have hheight : (toInt32 x.atTop.ca.header0.height).toNat = x.ca.header0.height := by
    have h := hp.area_lt
    rw [htop, hp.toInt32_height, Int.toNat_natCast]
  unfold bangThread1D
  rw [if_pos rfl, hheight]
  exact hrun.iterate _

/-- An automaton with one cell in every word. -/
def dottedRowCa (width height : Nat) : RowCa :=
  ⟨⟨fun _ => ⟨width, height, 0, fun _ => 1⟩, 0, 1, some Mmx.leftRightRule, 0, 0,
    ⟨fun _ => 0, 0, fun _ => 0, fun _ => 0⟩⟩, 0⟩

theorem processCa1D_rows_cells :
    ∃ run, Overwrites (fun cells => xor (cells 1 0) (cells 1 2)) (dottedRowCa 64 4) run :=
  (processCa1D_rows rfl Mmx.leftRightRule_computes
    ⟨by decide, by decide, by decide, by decide⟩ (by decide)).2.1 rfl

/-- Of 65536 by 32769 cells, more are before the last row than an `int` counts: a step from the
first row, which looks at the last one, has no result. -/
theorem processCa1D_overflow : (dottedRowCa 65536 32769).processCa1D = none := by
  have hwidth : toInt32 (dottedRowCa 65536 32769).ca.header0.width = 65536 := by decide
  have hheight : toInt32 (dottedRowCa 65536 32769).ca.header0.height = 32769 := by decide
  have hcurrow : toInt32 (dottedRowCa 65536 32769).currow = 0 := by decide
  have hfirst : dwrow 65536 ((0 + 32769 - 3 : Int).tmod 32769) = some 67104768 := by decide
  have hsecond : dwrow 65536 ((0 + 32769 - 2 : Int).tmod 32769) = some 67106816 := by decide
  have hlast : dwrow 65536 ((0 + 32769 - 1 : Int).tmod 32769) = none := by decide
  unfold processCa1D
  simp only [hwidth, hheight, hcurrow, hfirst, hsecond, hlast, Option.bind_some, Option.bind_none]
  exact if_pos (by decide)

end RowCa

end PureDataPacket
