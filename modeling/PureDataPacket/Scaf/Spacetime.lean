/-
# `PureDataPacket.Scaf.Spacetime` — lines, one below the other

In 1D mode a packet is a ring of rows, and the next line overwrites the oldest one.  The lines that
a run computes are one sequence, in which a line follows from the three lines before it, and the
packet is a window on that sequence.
-/
import PureDataPacket.Scaf.Library
import PureDataPacket.Scaf.Rows

namespace PureDataPacket

namespace RowCa

open Scaf

def rowCells (x : RowCa) (row : Nat) (column : Int) : Bool :=
  x.ca.header0.cell (row * x.ca.header0.width + column)

/-- Every line after the first `h` is computed from the three before it. -/
def Follows (f : (Fin 3 → Fin 3 → Bool) → Bool) (w h : Nat) (line : Nat → Int → Bool) : Prop :=
  ∀ k (column : Int), 0 ≤ column → column < w →
    line (k + h) column = f fun r c => line (k + h - 3 + r) ((column - 1 + (c : Nat)) % w)

section Run

variable {x : RowCa} {rule : Mmx → Mmx} {f : (Fin 3 → Fin 3 → Bool) → Bool} {w h : Nat}

/-- What a step does to the window that begins with row `currow`. -/
theorem Ready.window {s : RowCa} (hx : Ready rule w h x) (hs : Ready rule w h s)
    (hstep : Stepped f x s) {column : Int} (hlo : 0 ≤ column) (hhi : column < w) :
    (∀ k, k + 1 < h → s.rowCells ((s.currow + k) % h) column =
        x.rowCells ((x.currow + (k + 1)) % h) column) ∧
      s.rowCells ((s.currow + (h - 1)) % h) column =
        f fun r c => x.rowCells ((x.currow + (h - 3 + r)) % h) ((column - 1 + (c : Nat)) % w) := by
  have hh : 4 ≤ h := hx.height ▸ hx.rows.height_le
  have hcurrow : s.currow = (x.currow + 1) % h := by rw [hstep.currow, hx.height]
  have hlt := hx.currow
  unfold rowCells
  rw [hs.width, hx.width]
  refine ⟨fun k hk => ?_, ?_⟩
  · have hrow : (s.currow + k) % h = (x.currow + (k + 1)) % h := by
      rw [hcurrow, Nat.mod_add_mod, Nat.add_assoc, Nat.add_comm 1 k]
    have hother : (((x.currow + (k + 1)) % h : Nat) : Int) ≠ x.currow := by
      intro heq
      have heq : (x.currow + (k + 1)) % h = x.currow := by exact_mod_cast heq
      rcases Nat.lt_or_ge (x.currow + (k + 1)) h with hless | hmore
      · rw [Nat.mod_eq_of_lt hless] at heq
        omega
      · rw [Nat.mod_eq_sub_mod hmore, Nat.mod_eq_of_lt (by omega)] at heq
        omega
    have hkept := hstep.kept _ column hother hlo (by rw [hx.width]; exact hhi)
    rw [hx.width] at hkept
    rw [hrow]
    exact hkept
  · have hrow : (s.currow + (h - 1)) % h = x.currow := by
      have hsum : x.currow + 1 + (h - 1) = x.currow + h := by omega
      rw [hcurrow, Nat.mod_add_mod, hsum, Nat.add_mod_right, Nat.mod_eq_of_lt hlt]
    have hnew := hstep.row column hlo (by rw [hx.width]; exact hhi)
    rw [hx.width, hx.height] at hnew
    rw [hrow, hnew]
    refine congrArg f (funext fun r => funext fun c => ?_)
    have hr := r.isLt
    have hbefore : ((x.currow : Int) + h - 3 + (r : Nat)) % h =
        (((x.currow + (h - 3 + r)) % h : Nat) : Int) := by
      have hsum : (x.currow : Int) + h - 3 + (r : Nat) = ((x.currow + (h - 3 + r) : Nat) : Int) := by
        omega
      rw [hsum]
      exact (Int.natCast_mod _ _).symm
    rw [hbefore]

theorem Ready.lines (hx : Ready rule w h x) (hrule : ComputesRule rule f) :
    ∃ line, Follows f w h line ∧ ∀ n, ∃ s, iterate1D n x = some s ∧
      s.currow = (x.currow + n) % h ∧ ∀ k < h, ∀ column : Int, 0 ≤ column → column < w →
        s.rowCells ((x.currow + n + k) % h) column = line (n + k) column := by
  have hh : 4 ≤ h := hx.height ▸ hx.rows.height_le
  obtain ⟨run, hrun⟩ : ∃ run : Nat → RowCa, ∀ n, iterate1D n x = some (run n) ∧
      Ready rule w h (run n) := ⟨fun n => (hx.iterate hrule n).choose,
        fun n => (hx.iterate hrule n).choose_spec⟩
  have hstart : run 0 = x := (Option.some.inj (hrun 0).1).symm
  have hstepped : ∀ n, Stepped f (run n) (run (n + 1)) := by
    intro n
    obtain ⟨s, hs, hstep, -⟩ := (hrun n).2.step hrule
    have hnext : (iterate1D n x).bind processCa1D = some (run (n + 1)) := (hrun (n + 1)).1
    rw [(hrun n).1, Option.bind_some, hs] at hnext
    rw [← Option.some.inj hnext]
    exact hstep
  have hcurrow : ∀ n, (run n).currow = (x.currow + n) % h := by
    intro n
    induction n with
    | zero => rw [hstart, Nat.add_zero, Nat.mod_eq_of_lt hx.currow]
    | succ n ih => rw [(hstepped n).currow, ih, (hrun n).2.height, Nat.mod_add_mod, Nat.add_assoc]
  -- A line is where it is when it is the last one of the window.
  obtain ⟨line, hline⟩ : ∃ line : Nat → Int → Bool, ∀ k, line k =
      (run (k + 1 - h)).rowCells ((x.currow + k) % h) := ⟨_, fun _ => rfl⟩
  have hwindow : ∀ n, ∀ k < h, ∀ column : Int, 0 ≤ column → column < w →
      (run n).rowCells ((x.currow + n + k) % h) column = line (n + k) column := by
    intro n
    induction n with
    | zero =>
        intro k hk column _ _
        have hfirst : k + 1 - h = 0 := by omega
        rw [hline, Nat.zero_add, Nat.add_zero, hfirst]
    | succ n ih =>
        intro k hk column hlo hhi
        obtain ⟨hkept, -⟩ := (hrun n).2.window (hrun (n + 1)).2 (hstepped n) hlo hhi
        rcases Nat.lt_or_ge (k + 1) h with hless | hmore
        · have hk := hkept k hless
          rw [hcurrow, hcurrow, Nat.mod_add_mod, Nat.mod_add_mod] at hk
          have hsum : n + 1 + k = n + (k + 1) := by omega
          rw [hk, ih (k + 1) hless column hlo hhi, hsum]
        · have hlast : n + 1 + k + 1 - h = n + 1 := by omega
          rw [hline, hlast, Nat.add_assoc x.currow]
  refine ⟨line, fun k column hlo hhi => ?_, fun n => ⟨run n, (hrun n).1, hcurrow n, hwindow n⟩⟩
  obtain ⟨-, hnew⟩ := (hrun k).2.window (hrun (k + 1)).2 (hstepped k) hlo hhi
  have hlast := hwindow (k + 1) (h - 1) (by omega) column hlo hhi
  have hsum : k + 1 + (h - 1) = k + h := by omega
  rw [hcurrow, Nat.mod_add_mod] at hnew
  rw [hsum, hnew] at hlast
  rw [← hlast]
  refine congrArg f (funext fun r => funext fun c => ?_)
  have hr := r.isLt
  have hw := (hrun k).2.width ▸ (hrun k).2.rows.width_pos
  have hindex : k + h - 3 + r = k + (h - 3 + r) := by omega
  rw [hindex, ← hwindow k (h - 3 + r) (by omega) _ (Int.emod_nonneg _ (by omega))
    (Int.emod_lt_of_pos _ (by omega)), hcurrow, Nat.mod_add_mod]

end Run

/-- A rule of the library in 1D mode: after `n` steps the packet shows `h` lines of one sequence
from line `n` on, and in that sequence a line is the rule of the three lines before it. -/
theorem spacetime (optimize : Bool) (depth : Nat) {d : Definition} (hd : d ∈ carules)
    (hname : "rule_".toList <+: d.name) {x : RowCa} {w h : Nat}
    (hx : Ready (routine optimize depth d.name) w h x) :
    ∃ line, Follows (ruleOf d.name) w h line ∧ ∀ n, ∃ s, iterate1D n x = some s ∧
      s.currow = (x.currow + n) % h ∧ ∀ k < h, ∀ column : Int, 0 ≤ column → column < w →
        s.rowCells ((x.currow + n + k) % h) column = line (n + k) column :=
  hx.lines (routine_computes optimize depth hd hname)

/-- A packet with one cell in every word, and a rule of the library. -/
def withRule (name : Symbol) : RowCa :=
  ⟨{ (dottedRowCa 64 4).ca with caRoutine := some (routine true 0 name) }, 0⟩

theorem ready_withRule (name : Symbol) : Ready (routine true 0 name) 64 4 (withRule name) :=
  ⟨rfl, ⟨show 0 < 64 by decide, show 64 ∣ 64 by decide, show 4 ≤ 4 by decide,
    show 64 * (4 - 1) < 2 ^ 31 by decide⟩, rfl, rfl, show 0 < 4 by decide⟩

theorem spacetime_strobe : ∃ line, Follows (ruleOf "rule_strobe".toList) 64 4 line ∧
    ∀ n, ∃ s, iterate1D n (withRule "rule_strobe".toList) = some s ∧ s.currow = (0 + n) % 4 := by
  have hd : ∃ d ∈ carules, d.name = "rule_strobe".toList := by decide
  obtain ⟨d, hmem, hname⟩ := hd
  obtain ⟨line, hline, hrun⟩ := spacetime true 0 hmem (hname ▸ by decide)
    (by rw [hname]; exact ready_withRule _)
  rw [hname] at hline
  exact ⟨line, hline, fun n => (hrun n).imp fun _ h => ⟨h.1, h.2.1⟩⟩

/-- A line of the rule that is meant to have the number 110. -/
theorem Follows.ring {w h : Nat} {line : Nat → Int → Bool} (hh : 4 ≤ h)
    (hline : Follows (ruleOf "rule_w110".toList) w h line) {k : Nat} {column : Int}
    (hlo : 0 ≤ column) (hhi : column < w) :
    line (k + h) column = Scaf.ring 118 w (line (k + h - 2)) column := by
  have hmiddle : k + h - 3 + ((1 : Fin 3) : Nat) = k + h - 2 := by
    show k + h - 3 + 1 = _
    omega
  have hleft : column - 1 + (((0 : Fin 3) : Nat) : Int) = column - 1 := Int.add_zero _
  have hcentre : column - 1 + (((1 : Fin 3) : Nat) : Int) = column := by
    show column - 1 + 1 = _
    omega
  have hright : column - 1 + (((2 : Fin 3) : Nat) : Int) = column + 1 := by
    show column - 1 + 2 = _
    omega
  rw [hline k column hlo hhi, ruleOf_w110, hmiddle, hleft, hcentre, hright]
  rfl

/-- That rule in 1D mode looks at the line before the last one only, so the lines with even and
with odd numbers are two automata that know nothing of each other, with the elementary rule 118. -/
theorem spacetime_w110 (optimize : Bool) (depth : Nat) {x : RowCa} {w h : Nat}
    (hx : Ready (routine optimize depth "rule_w110".toList) w h x) :
    ∃ line : Nat → Int → Bool, (∀ n, ∃ s, iterate1D n x = some s ∧
        ∀ k < h, ∀ column : Int, 0 ≤ column → column < w →
          s.rowCells ((x.currow + n + k) % h) column = line (n + k) column) ∧
      ∀ first, h ≤ first + 2 → ∀ j (column : Int), 0 ≤ column → column < w →
        line (first + 2 * j) column = (Scaf.ring 118 w)^[j] (line first) column := by
  have hd : ∃ d ∈ carules, d.name = "rule_w110".toList := by decide
  obtain ⟨d, hmem, hname⟩ := hd
  have hrule := routine_computes optimize depth hmem (hname ▸ by decide)
  rw [hname] at hrule
  obtain ⟨line, hline, hrun⟩ := hx.lines hrule
  have hh : 4 ≤ h := hx.height ▸ hx.rows.height_le
  refine ⟨line, fun n => (hrun n).imp fun _ hs => ⟨hs.1, hs.2.2⟩, fun first hfirst j => ?_⟩
  induction j with
  | zero => exact fun _ _ _ => rfl
  | succ j ih =>
      intro column hlo hhi
      have hindex : first + 2 * (j + 1) = first + 2 * j + 2 - h + h := by omega
      have hback : first + 2 * j + 2 - h + h - 2 = first + 2 * j := by omega
      have hring : ∀ c : Int, line (first + 2 * j) (c % w) =
          (Scaf.ring 118 w)^[j] (line first) (c % w) := fun c =>
        ih _ (Int.emod_nonneg _ (by omega)) (Int.emod_lt_of_pos _ (by omega))
      rw [hindex, hline.ring hh hlo hhi, hback, Function.iterate_succ_apply']
      unfold Scaf.ring
      rw [hring, hring, hring]
      rfl

theorem spacetime_w110_cells : ∃ line : Nat → Int → Bool,
    (∀ n, ∃ s, iterate1D n (withRule "rule_w110".toList) = some s) ∧
      line (2 + 2 * 5) 7 = (Scaf.ring 118 64)^[5] (line 2) 7 := by
  obtain ⟨line, hrun, hring⟩ := spacetime_w110 true 0 (ready_withRule _)
  exact ⟨line, fun n => (hrun n).imp fun _ hs => hs.1,
    hring 2 (by decide) 5 7 (by decide) (by decide)⟩

end RowCa

end PureDataPacket
