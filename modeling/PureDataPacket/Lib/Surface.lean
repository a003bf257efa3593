/-
# `PureDataPacket.Lib.Surface` — closed surfaces made of triangles

A surface is the list of its faces.  It is closed when every directed side has
its reverse in another face and no side is in two faces, and when no face lies
on another one back to back.

A face is divided into three by a point inside it, or into four by the
midpoints of its sides.  The midpoints are a map from undirected edges: all
faces are divided by the same map, and it is this that fits them together
again.

| | |
| :-- | :-- |
| `Apart` | two faces that can be part of one surface |
| `Closed` | a closed surface |
| `Closed.cone` | a face may be divided into three |
| `Midpoints` | what the new vertices have to be |
| `quarters_apart` | quarters fit as the faces do |
| `Closed.quarters` | all faces may be divided into four |
-/
import Mathlib.Algebra.BigOperators.Group.Finset.Basic
import Mathlib.Algebra.Order.BigOperators.Group.Finset
import Mathlib.Data.Sym.Sym2
import Mathlib.Data.List.Nodup

namespace PureDataPacket

/-- A triangle by its corners, in the order in which they are seen from the front. -/
structure Face (α : Type*) where
  a : α
  b : α
  c : α
  deriving DecidableEq

variable {α : Type*}

/-- The edge of a directed side. -/
def edge (e : α × α) : Sym2 α := s(e.1, e.2)

@[simp] theorem edge_swap (e : α × α) : edge e.swap = edge e := Sym2.eq_swap

theorem edge_eq_iff {p q : α × α} : edge p = edge q ↔ p = q ∨ p = q.swap := by
  obtain ⟨a, b⟩ := p
  obtain ⟨c, d⟩ := q
  simp [edge]

namespace Face

def corners (f : Face α) : List α := [f.a, f.b, f.c]

/-- The sides, each in the direction in which it is walked. -/
def sides (f : Face α) : List (α × α) := [(f.a, f.b), (f.b, f.c), (f.c, f.a)]

/-- Two sides of `f` are, in the other direction, sides of `g`. -/
def Folded (f g : Face α) : Prop :=
  ∃ p ∈ f.sides, ∃ q ∈ f.sides, p ≠ q ∧ p.swap ∈ g.sides ∧ q.swap ∈ g.sides

/-- Two faces that can be part of one surface. -/
structure Apart (f g : Face α) : Prop where
  disjoint : ∀ e ∈ f.sides, e ∉ g.sides
  not_folded : ¬ Folded f g

theorem Folded.symm {f g : Face α} : Folded f g → Folded g f := by
  rintro ⟨p, hp, q, hq, hpq, hp', hq'⟩
  exact ⟨_, hp', _, hq', fun h => hpq (Prod.swap_injective h), by simpa, by simpa⟩

theorem Apart.symm {f g : Face α} (h : Apart f g) : Apart g f :=
  ⟨fun e he he' => h.disjoint e he' he, fun hf => h.not_folded hf.symm⟩

/-- A line that two faces both have, in opposite directions, is the only one. -/
theorem apart_of {f g : Face α} (hd : ∀ e ∈ f.sides, e ∉ g.sides)
    (h : ∀ p ∈ f.sides, ∀ q ∈ f.sides, p.swap ∈ g.sides → q.swap ∈ g.sides → p = q) :
    Apart f g where
  disjoint := hd
  not_folded := by
    rintro ⟨p, hp, q, hq, hpq, hp', hq'⟩
    exact hpq (h p hp q hq hp' hq')

theorem mem_corners_of_side {f : Face α} {e : α × α} (he : e ∈ f.sides) :
    e.1 ∈ f.corners ∧ e.2 ∈ f.corners := by
  simp only [sides, List.mem_cons, List.not_mem_nil, or_false] at he
  rcases he with rfl | rfl | rfl <;> simp [corners]

theorem ne_of_side {f : Face α} (hf : f.corners.Nodup) {e : α × α} (he : e ∈ f.sides) :
    e.1 ≠ e.2 := by
  simp only [sides, List.mem_cons, List.not_mem_nil, or_false] at he
  simp only [corners, List.nodup_cons, List.mem_cons, List.not_mem_nil, or_false, not_or] at hf
  rcases he with rfl | rfl | rfl
  · exact hf.1.1
  · exact hf.2.1
  · exact fun h => hf.1.2 h.symm

theorem sides_nodup {f : Face α} (hf : f.corners.Nodup) : f.sides.Nodup := by
  simp only [corners, List.nodup_cons, List.mem_cons, List.not_mem_nil, or_false, not_or] at hf
  simp only [sides, List.nodup_cons, List.mem_cons, List.not_mem_nil, or_false, Prod.mk.injEq]
  grind

theorem swap_notMem_sides {f : Face α} (hf : f.corners.Nodup) {e : α × α} (he : e ∈ f.sides) :
    e.swap ∉ f.sides := by
  simp only [sides, List.mem_cons, List.not_mem_nil, or_false] at he
  simp only [corners, List.nodup_cons, List.mem_cons, List.not_mem_nil, or_false, not_or] at hf
  rcases he with rfl | rfl | rfl <;> simp [sides] <;> grind

/-- Two corners are joined by a side, in one direction or the other. -/
theorem side_of_corners {f : Face α} {x y : α} (hx : x ∈ f.corners) (hy : y ∈ f.corners)
    (hxy : x ≠ y) : (x, y) ∈ f.sides ∨ (y, x) ∈ f.sides := by
  simp only [corners, List.mem_cons, List.not_mem_nil, or_false] at hx hy
  rcases hx with rfl | rfl | rfl <;> rcases hy with rfl | rfl | rfl <;>
    first
      | exact absurd rfl hxy
      | simp [sides]

theorem exists_side_of_corner {f : Face α} {x : α} (hx : x ∈ f.corners) :
    ∃ e ∈ f.sides, e.1 = x := by
  simp only [corners, List.mem_cons, List.not_mem_nil, or_false] at hx
  rcases hx with rfl | rfl | rfl
  · exact ⟨_, List.mem_cons_self, rfl⟩
  · exact ⟨_, List.mem_cons_of_mem _ List.mem_cons_self, rfl⟩
  · exact ⟨_, List.mem_cons_of_mem _ (List.mem_cons_of_mem _ List.mem_cons_self), rfl⟩

end Face

open Face

/-- A closed surface. -/
structure Closed (fs : List (Face α)) : Prop where
  corners : ∀ f ∈ fs, f.corners.Nodup
  apart : fs.Pairwise Apart
  swap : ∀ f ∈ fs, ∀ e ∈ f.sides, ∃ g ∈ fs, e.swap ∈ g.sides

namespace Closed

variable {fs gs : List (Face α)}

theorem perm (h : Closed fs) (hp : fs.Perm gs) : Closed gs where
  corners := fun f hf => h.corners f (hp.mem_iff.2 hf)
  apart := (hp.pairwise_iff fun h => h.symm).1 h.apart
  swap := fun f hf e he => by
    obtain ⟨g, hg, hge⟩ := h.swap f (hp.mem_iff.2 hf) e he
    exact ⟨g, hp.mem_iff.1 hg, hge⟩

theorem nodup (h : Closed fs) : (fs.flatMap sides).Nodup := by
  rw [List.nodup_flatMap]
  exact ⟨fun f hf => sides_nodup (h.corners f hf),
    h.apart.imp fun hfg e he he' => hfg.disjoint e he he'⟩

theorem eq_of_side (h : Closed fs) {f g : Face α} (hf : f ∈ fs) (hg : g ∈ fs) {e : α × α}
    (hef : e ∈ f.sides) (heg : e ∈ g.sides) : f = g := by
  by_contra hne
  have hsymm : Std.Symm (α := Face α) Apart := ⟨fun _ _ h => h.symm⟩
  exact (h.apart.forall hf hg hne).disjoint e hef heg

end Closed

theorem closed_tetra {a b c d : α} (h : [a, b, c, d].Nodup) :
    Closed [⟨a, b, c⟩, ⟨b, a, d⟩, ⟨a, c, d⟩, (⟨b, d, c⟩ : Face α)] where
  corners := by
    simp only [List.nodup_cons, List.mem_cons, List.not_mem_nil, or_false, not_or] at h
    simp only [Face.corners, List.mem_cons, List.not_mem_nil, or_false, forall_eq_or_imp,
      forall_eq, List.nodup_cons, not_or]
    grind
  apart := by
    simp only [List.nodup_cons, List.mem_cons, List.not_mem_nil, or_false, not_or] at h
    simp only [List.pairwise_cons, List.mem_cons, List.not_mem_nil, or_false, forall_eq_or_imp,
      forall_eq, List.Pairwise.nil, and_true, false_implies, implies_true]
    refine ⟨⟨?_, ?_, ?_⟩, ⟨?_, ?_⟩, ?_⟩ <;> apply apart_of <;>
      simp only [Face.sides, List.mem_cons, List.not_mem_nil, or_false] <;> grind
  swap := by
    simp [Face.sides]

/-! ## Counting edges -/

theorem length_sides (fs : List (Face α)) : (fs.flatMap sides).length = 3 * fs.length := by
  induction fs with
  | nil => rfl
  | cons f fs ih =>
      simp only [List.flatMap_cons, List.length_append, ih, sides, List.length_cons,
        List.length_nil]
      omega

section Counting

variable [DecidableEq α]

/-- The edges of a list of faces. -/
def edges (fs : List (Face α)) : Finset (Sym2 α) := ((fs.flatMap sides).map edge).toFinset

theorem mem_edges {fs : List (Face α)} {s : Sym2 α} :
    s ∈ edges fs ↔ ∃ f ∈ fs, ∃ e ∈ f.sides, edge e = s := by
  simp only [edges, List.mem_toFinset, List.mem_map, List.mem_flatMap]
  constructor
  · rintro ⟨e, ⟨f, hf, he⟩, rfl⟩
    exact ⟨f, hf, e, he, rfl⟩
  · rintro ⟨f, hf, e, he, rfl⟩
    exact ⟨e, ⟨f, hf, he⟩, rfl⟩

theorem mem_edges_cons {f : Face α} {fs : List (Face α)} {s : Sym2 α} :
    s ∈ edges (f :: fs) ↔ (∃ e ∈ f.sides, edge e = s) ∨ s ∈ edges fs := by
  rw [mem_edges, mem_edges]
  constructor
  · rintro ⟨g, hg, he⟩
    rcases List.mem_cons.1 hg with rfl | hg
    · exact Or.inl he
    · exact Or.inr ⟨g, hg, he⟩
  · rintro (he | ⟨g, hg, he⟩)
    · exact ⟨f, List.mem_cons_self, he⟩
    · exact ⟨g, List.mem_cons_of_mem _ hg, he⟩

theorem edges_perm {fs gs : List (Face α)} (h : fs.Perm gs) : edges fs = edges gs := by
  ext s
  simp only [mem_edges, h.mem_iff]

theorem Closed.card_edges {fs : List (Face α)} (h : Closed fs) :
    2 * (edges fs).card = 3 * fs.length := by
  set S := (fs.flatMap sides).toFinset with hS
  have hcard : S.card = 3 * fs.length := by
    rw [hS, List.toFinset_card_of_nodup h.nodup, length_sides]
  have hmem : ∀ e, e ∈ S ↔ ∃ f ∈ fs, e ∈ f.sides := fun e => by
    rw [hS, List.mem_toFinset, List.mem_flatMap]
  have himage : edges fs = S.image edge := by
    ext s
    simp only [mem_edges, Finset.mem_image, hmem]
    constructor
    · rintro ⟨f, hf, e, he, rfl⟩
      exact ⟨e, ⟨f, hf, he⟩, rfl⟩
    · rintro ⟨e, ⟨f, hf, he⟩, rfl⟩
      exact ⟨f, hf, e, he, rfl⟩
  -- the two sides of an edge are a side and its reverse
  have hfibre : ∀ s ∈ S.image edge, (S.filter fun e => edge e = s).card = 2 := by
    intro s hs
    obtain ⟨e, he, rfl⟩ := Finset.mem_image.1 hs
    obtain ⟨f, hf, hef⟩ := (hmem e).1 he
    obtain ⟨g, hg, hge⟩ := h.swap f hf e hef
    have hne : e ≠ e.swap := fun heq =>
      ne_of_side (h.corners f hf) hef (congrArg Prod.fst heq)
    rw [show (S.filter fun p => edge p = edge e) = {e, e.swap} by
      ext p
      simp only [Finset.mem_filter, Finset.mem_insert, Finset.mem_singleton, edge_eq_iff]
      constructor
      · exact fun hp => hp.2
      · rintro (rfl | rfl)
        · exact ⟨he, Or.inl rfl⟩
        · exact ⟨(hmem _).2 ⟨g, hg, hge⟩, Or.inr rfl⟩]
    exact Finset.card_pair hne
  rw [← hcard, Finset.card_eq_sum_card_image edge S, Finset.sum_congr rfl hfibre, himage,
    Finset.sum_const, smul_eq_mul, Nat.mul_comm]

end Counting

/-! ## Dividing a face into three -/

/-- The faces between the sides of `f` and the point `n`. -/
def Face.cone (f : Face α) (n : α) : List (Face α) := [⟨f.a, f.b, n⟩, ⟨f.b, f.c, n⟩, ⟨f.c, f.a, n⟩]

namespace Face

variable {f g : Face α} {n : α}

theorem mem_cone : g ∈ f.cone n ↔ ∃ e ∈ f.sides, g = ⟨e.1, e.2, n⟩ := by
  simp [cone, sides]

/-- The face behind a side is across the next one. -/
theorem exists_next {e : α × α} (he : e ∈ f.sides) : ∃ e' ∈ f.sides, e'.1 = e.2 :=
  exists_side_of_corner (mem_corners_of_side he).2

theorem exists_previous {e : α × α} (he : e ∈ f.sides) : ∃ e' ∈ f.sides, e'.2 = e.1 := by
  simp only [sides, List.mem_cons, List.not_mem_nil, or_false] at he
  rcases he with rfl | rfl | rfl <;> simp [sides]

theorem cone_apart (hf : f.corners.Nodup) (hn : n ∉ f.corners) : (f.cone n).Pairwise Apart := by
  simp only [corners, List.nodup_cons, List.mem_cons, List.not_mem_nil, or_false, not_or] at hf hn
  simp only [cone, List.pairwise_cons, List.mem_cons, List.not_mem_nil, or_false]
  have key : ∀ x y z : α, x ≠ y → y ≠ z → x ≠ z → n ≠ x → n ≠ y → n ≠ z →
      Apart ⟨x, y, n⟩ ⟨y, z, n⟩ := by
    intro x y z hxy hyz hxz hx hy hz
    apply apart_of
    · simp only [sides, List.mem_cons, List.not_mem_nil, or_false]
      grind
    · simp only [sides, List.mem_cons, List.not_mem_nil, or_false]
      grind
  obtain ⟨⟨hab, hac⟩, ⟨hbc, -⟩⟩ := hf
  obtain ⟨hna, hnb, hnc⟩ := hn
  refine ⟨?_, ?_, by simp, List.Pairwise.nil⟩
  · rintro g (rfl | rfl)
    · exact key _ _ _ hab hbc hac hna hnb hnc
    · exact (key _ _ _ (Ne.symm hac) hab (Ne.symm hbc) hnc hna hnb).symm
  · rintro g rfl
    exact key _ _ _ hbc (Ne.symm hac) (Ne.symm hab) hnb hnc hna

/-- Only the outer sides of the cone can be met by a face without the point. -/
theorem Apart.cone (hfg : Apart f g) (hn : n ∉ g.corners) {h : Face α} (hh : h ∈ f.cone n) :
    Apart h g := by
  obtain ⟨e, he, rfl⟩ := mem_cone.1 hh
  have houter : ∀ p ∈ (⟨e.1, e.2, n⟩ : Face α).sides, p ∈ g.sides ∨ p.swap ∈ g.sides → p = e := by
    intro p hp hpg
    have hp1 : p.1 ∈ g.corners ∧ p.2 ∈ g.corners := by
      rcases hpg with hpg | hpg
      · exact mem_corners_of_side hpg
      · exact (mem_corners_of_side hpg).symm
    simp only [sides, List.mem_cons, List.not_mem_nil, or_false] at hp
    rcases hp with rfl | rfl | rfl
    · rfl
    · exact absurd hp1.2 hn
    · exact absurd hp1.1 hn
  apply apart_of
  · intro p hp hpg
    rw [houter p hp (Or.inl hpg)] at hpg
    exact hfg.disjoint e he hpg
  · intro p hp q hq hp' hq'
    exact (houter p hp (Or.inr hp')).trans (houter q hq (Or.inr hq')).symm

end Face

theorem Closed.cone {f : Face α} {fs : List (Face α)} (h : Closed (f :: fs)) {n : α}
    (hn : ∀ g ∈ f :: fs, n ∉ g.corners) : Closed (f.cone n ++ fs) where
  corners := by
    intro g hg
    rcases List.mem_append.1 hg with hg | hg
    · obtain ⟨e, he, rfl⟩ := mem_cone.1 hg
      have hne := ne_of_side (h.corners f List.mem_cons_self) he
      have hmem := mem_corners_of_side he
      have hnf := hn f List.mem_cons_self
      have h1 : e.1 ≠ n := fun h => hnf (h ▸ hmem.1)
      have h2 : e.2 ≠ n := fun h => hnf (h ▸ hmem.2)
      simp [Face.corners, hne, h1, h2]
    · exact h.corners g (List.mem_cons_of_mem _ hg)
  apart := by
    obtain ⟨hf, hfs⟩ := List.pairwise_cons.1 h.apart
    rw [List.pairwise_append]
    exact ⟨cone_apart (h.corners f List.mem_cons_self) (hn f List.mem_cons_self), hfs,
      fun c hc g hg => (hf g hg).cone (hn g (List.mem_cons_of_mem _ hg)) hc⟩
  swap := by
    -- a side of the old surface is one of the new
    have hold : ∀ g ∈ f :: fs, ∀ e ∈ g.sides, ∃ g' ∈ f.cone n ++ fs, e ∈ g'.sides := by
      intro g hg e he
      rcases List.mem_cons.1 hg with rfl | hg
      · exact ⟨_, List.mem_append_left _ (mem_cone.2 ⟨e, he, rfl⟩), List.mem_cons_self⟩
      · exact ⟨g, List.mem_append_right _ hg, he⟩
    intro g hg p hp
    rcases List.mem_append.1 hg with hg | hg
    · obtain ⟨e, he, rfl⟩ := mem_cone.1 hg
      simp only [sides, List.mem_cons, List.not_mem_nil, or_false] at hp
      rcases hp with rfl | rfl | rfl
      · obtain ⟨g, hg, hge⟩ := h.swap f List.mem_cons_self _ he
        exact hold g hg _ hge
      · obtain ⟨e', he', heq⟩ := exists_next he
        exact ⟨_, List.mem_append_left _ (mem_cone.2 ⟨e', he', rfl⟩), by simp [sides, heq]⟩
      · obtain ⟨e', he', heq⟩ := exists_previous he
        exact ⟨_, List.mem_append_left _ (mem_cone.2 ⟨e', he', rfl⟩), by simp [sides, heq]⟩
    · obtain ⟨g', hg', hge⟩ := h.swap g (List.mem_cons_of_mem _ hg) p hp
      exact hold g' hg' _ hge

/-! ## Dividing every face into four -/

/-- The faces between the corners of `f` and the midpoints of its sides. -/
def Face.quarters (μ : Sym2 α → α) (f : Face α) : List (Face α) :=
  let ab := μ (edge (f.a, f.b))
  let bc := μ (edge (f.b, f.c))
  let ca := μ (edge (f.c, f.a))
  [⟨f.a, ab, ca⟩, ⟨f.b, bc, ab⟩, ⟨f.c, ca, bc⟩, ⟨ab, bc, ca⟩]

theorem length_quarters (μ : Sym2 α → α) (fs : List (Face α)) :
    (fs.flatMap (Face.quarters μ)).length = 4 * fs.length := by
  induction fs with
  | nil => rfl
  | cons f fs ih =>
      simp only [List.flatMap_cons, List.length_append, ih, Face.quarters, List.length_cons,
        List.length_nil]
      omega

/-- Midpoints of the edges in `E` are not in `V`, and edges have different ones. -/
structure Midpoints (V : Set α) (E : Set (Sym2 α)) (μ : Sym2 α → α) : Prop where
  new : ∀ s ∈ E, μ s ∉ V
  inj : Set.InjOn μ E

/-- A face with corners in `V` and edges in `E`. -/
structure Face.Within (V : Set α) (E : Set (Sym2 α)) (f : Face α) : Prop where
  nodup : f.corners.Nodup
  corners : ∀ x ∈ f.corners, x ∈ V
  sides : ∀ e ∈ f.sides, edge e ∈ E

/-- `e` is one half of the side `p`. -/
def Half (μ : Sym2 α → α) (p e : α × α) : Prop := e = (p.1, μ (edge p)) ∨ e = (μ (edge p), p.2)

/-- `e` joins the midpoints of two sides of `f`. -/
def Inner (μ : Sym2 α → α) (f : Face α) (e : α × α) : Prop :=
  ∃ p ∈ f.sides, ∃ q ∈ f.sides, p ≠ q ∧ e = (μ (edge p), μ (edge q))

theorem Half.swap {μ : Sym2 α → α} {p e : α × α} (h : Half μ p e) : Half μ p.swap e.swap := by
  rcases h with rfl | rfl
  · exact Or.inr (by simp)
  · exact Or.inl (by simp)

theorem Inner.swap {μ : Sym2 α → α} {f : Face α} {e : α × α} (h : Inner μ f e) :
    Inner μ f e.swap := by
  obtain ⟨p, hp, q, hq, hpq, rfl⟩ := h
  exact ⟨q, hq, p, hp, hpq.symm, rfl⟩

namespace Face

variable {μ : Sym2 α → α} {V : Set α} {E : Set (Sym2 α)} {f g F G : Face α} {e p q : α × α}

theorem side_quarters (hf : f.corners.Nodup) (hF : F ∈ f.quarters μ) (he : e ∈ F.sides) :
    (∃ p ∈ f.sides, Half μ p e) ∨ Inner μ f e := by
  obtain ⟨a, b, c⟩ := f
  simp only [corners, List.nodup_cons, List.mem_cons, List.not_mem_nil, or_false, not_or] at hf
  obtain ⟨⟨hab, hac⟩, ⟨hbc, -⟩⟩ := hf
  simp only [quarters, List.mem_cons, List.not_mem_nil, or_false] at hF
  rcases hF with rfl | rfl | rfl | rfl <;>
    simp only [sides, List.mem_cons, List.not_mem_nil, or_false] at he <;>
    rcases he with rfl | rfl | rfl
  · exact Or.inl ⟨(a, b), by simp [sides], Or.inl rfl⟩
  · exact Or.inr ⟨(a, b), by simp [sides], (c, a), by simp [sides], by simp [hac], rfl⟩
  · exact Or.inl ⟨(c, a), by simp [sides], Or.inr rfl⟩
  · exact Or.inl ⟨(b, c), by simp [sides], Or.inl rfl⟩
  · exact Or.inr ⟨(b, c), by simp [sides], (a, b), by simp [sides], by simp [Ne.symm hab], rfl⟩
  · exact Or.inl ⟨(a, b), by simp [sides], Or.inr rfl⟩
  · exact Or.inl ⟨(c, a), by simp [sides], Or.inl rfl⟩
  · exact Or.inr ⟨(c, a), by simp [sides], (b, c), by simp [sides], by simp [Ne.symm hbc], rfl⟩
  · exact Or.inl ⟨(b, c), by simp [sides], Or.inr rfl⟩
  · exact Or.inr ⟨(a, b), by simp [sides], (b, c), by simp [sides], by simp [hab], rfl⟩
  · exact Or.inr ⟨(b, c), by simp [sides], (c, a), by simp [sides], by simp [hbc], rfl⟩
  · exact Or.inr ⟨(c, a), by simp [sides], (a, b), by simp [sides], by simp [Ne.symm hac], rfl⟩

theorem corner_quarters (hF : F ∈ f.quarters μ) {x : α} (hx : x ∈ F.corners) :
    x ∈ f.corners ∨ ∃ p ∈ f.sides, x = μ (edge p) := by
  simp only [quarters, List.mem_cons, List.not_mem_nil, or_false] at hF
  rcases hF with rfl | rfl | rfl | rfl <;>
    simp only [corners, List.mem_cons, List.not_mem_nil, or_false] at hx <;>
    rcases hx with rfl | rfl | rfl <;> simp [corners, sides]

theorem quarters_congr {μ' : Sym2 α → α} (h : ∀ p ∈ f.sides, μ' (edge p) = μ (edge p)) :
    f.quarters μ' = f.quarters μ := by
  simp only [sides, List.forall_mem_cons] at h
  simp only [quarters, h.1, h.2.1, h.2.2.1]

theorem exists_quarter_of_half (hp : p ∈ f.sides) (h : Half μ p e) :
    ∃ F ∈ f.quarters μ, e ∈ F.sides := by
  simp only [sides, List.mem_cons, List.not_mem_nil, or_false] at hp
  rcases hp with rfl | rfl | rfl <;> rcases h with rfl | rfl <;> simp [quarters, sides]

theorem exists_quarter_of_inner (h : Inner μ f e) : ∃ F ∈ f.quarters μ, e ∈ F.sides := by
  obtain ⟨p, hp, q, hq, hpq, rfl⟩ := h
  simp only [sides, List.mem_cons, List.not_mem_nil, or_false] at hp hq
  rcases hp with rfl | rfl | rfl <;> rcases hq with rfl | rfl | rfl <;>
    first
      | exact absurd rfl hpq
      | simp [quarters, sides]

theorem Within.side_mem (hf : f.Within V E) (hp : p ∈ f.sides) : p.1 ∈ V ∧ p.2 ∈ V :=
  ⟨hf.corners _ (mem_corners_of_side hp).1, hf.corners _ (mem_corners_of_side hp).2⟩

theorem Half.unique (hm : Midpoints V E μ) (hpV : p.1 ∈ V ∧ p.2 ∈ V)
    (hpE : edge p ∈ E) (hqE : edge q ∈ E) (hpne : p.1 ≠ p.2) (he : Half μ p e)
    (he' : Half μ q e) : p = q := by
  have hpμ := hm.new _ hpE
  have hqμ := hm.new _ hqE
  have hedge : μ (edge p) = μ (edge q) → p = q ∨ p = q.swap := fun h =>
    edge_eq_iff.1 (hm.inj hpE hqE h)
  rcases he with rfl | rfl <;> rcases he' with he' | he' <;> obtain ⟨h1, h2⟩ := Prod.mk.inj he'
  · rcases hedge h2 with h | h
    · exact h
    · exact absurd (h1.trans (congrArg Prod.snd h).symm) hpne
  · exact absurd (h1 ▸ hpV.1) hqμ
  · exact absurd (h2 ▸ hpV.2) hqμ
  · rcases hedge h1 with h | h
    · exact h
    · exact absurd (h2.trans (congrArg Prod.fst h).symm).symm hpne

section Midpoints

variable (hm : Midpoints V E μ) (hf : f.Within V E)

include hm hf

theorem midpoint_notMem (hp : p ∈ f.sides) : μ (edge p) ∉ V := hm.new _ (hf.sides p hp)

/-- A quarter has at most one corner that is not a midpoint. -/
theorem old_corner_unique (hF : F ∈ f.quarters μ) {x y : α} (hx : x ∈ F.corners)
    (hy : y ∈ F.corners) (hxV : x ∈ V) (hyV : y ∈ V) : x = y := by
  have hab : μ (edge (f.a, f.b)) ∉ V := midpoint_notMem hm hf (by simp [sides])
  have hbc : μ (edge (f.b, f.c)) ∉ V := midpoint_notMem hm hf (by simp [sides])
  have hca : μ (edge (f.c, f.a)) ∉ V := midpoint_notMem hm hf (by simp [sides])
  simp only [quarters, List.mem_cons, List.not_mem_nil, or_false] at hF
  rcases hF with rfl | rfl | rfl | rfl <;>
    simp only [corners, List.mem_cons, List.not_mem_nil, or_false] at hx hy <;> grind

variable (hg : g.Within V E)

include hg

/-- One end of a half is a corner of `f`. -/
theorem not_inner_of_half (hp : p ∈ f.sides) (he : Half μ p e) : ¬ Inner μ g e := by
  rintro ⟨q, hq, r, hr, -, rfl⟩
  have hpV := hf.side_mem hp
  have hqV := midpoint_notMem hm hg hq
  have hrV := midpoint_notMem hm hg hr
  rcases he with he | he
  · exact hqV ((Prod.mk.inj he).1 ▸ hpV.1)
  · exact hrV ((Prod.mk.inj he).2 ▸ hpV.2)

/-- Two faces with a common inner line lie on one another. -/
theorem folded_of_inner (hfg : ∀ e ∈ f.sides, e ∉ g.sides) (he : Inner μ f e)
    (he' : Inner μ g e) : Folded f g := by
  obtain ⟨p, hp, q, hq, hpq, rfl⟩ := he
  obtain ⟨p', hp', q', hq', -, heq⟩ := he'
  obtain ⟨h1, h2⟩ := Prod.mk.inj heq
  -- the sides that share a midpoint are the reverse of each other
  have hswap : ∀ {r r' : α × α}, r ∈ f.sides → r' ∈ g.sides → μ (edge r) = μ (edge r') →
      r.swap ∈ g.sides := by
    intro r r' hr hr' h
    rcases edge_eq_iff.1 (hm.inj (hf.sides r hr) (hg.sides r' hr') h) with h | h
    · exact absurd (h ▸ hr') (hfg r hr)
    · rw [h, Prod.swap_swap]
      exact hr'
  exact ⟨p, hp, q, hq, hpq, hswap hp hp' h1, hswap hq hq' h2⟩

/-- Quarters of faces that can be part of one surface can be, too. -/
theorem quarters_apart (hfg : Apart f g) (hF : F ∈ f.quarters μ) (hG : G ∈ g.quarters μ) :
    Apart F G := by
  refine ⟨fun e he he' => ?_, ?_⟩
  · rcases side_quarters hf.nodup hF he with ⟨p, hp, hpe⟩ | hin <;>
      rcases side_quarters hg.nodup hG he' with ⟨q, hq, hqe⟩ | hin'
    · have hpq := Half.unique hm (hf.side_mem hp) (hf.sides p hp) (hg.sides q hq)
        (ne_of_side hf.nodup hp) hpe hqe
      exact hfg.disjoint p hp (hpq ▸ hq)
    · exact not_inner_of_half hm hf hg hp hpe hin'
    · exact not_inner_of_half hm hg hf hq hqe hin
    · exact hfg.not_folded (folded_of_inner hm hf hg hfg.disjoint hin hin')
  · rintro ⟨P, hP, Q, hQ, hPQ, hP', hQ'⟩
    -- a line that both have is a half of a side that both have
    have hside : ∀ R ∈ F.sides, R.swap ∈ G.sides →
        ∃ r ∈ f.sides, Half μ r R ∧ r.swap ∈ g.sides := by
      intro R hR hR'
      rcases side_quarters hf.nodup hF hR with ⟨r, hr, hrR⟩ | hin <;>
        rcases side_quarters hg.nodup hG hR' with ⟨r', hr', hrR'⟩ | hin'
      · have hback := hrR'.swap
        rw [Prod.swap_swap] at hback
        have hrr' : r = r'.swap :=
          Half.unique hm (hf.side_mem hr) (hf.sides r hr)
            (edge_swap r' ▸ hg.sides r' hr') (ne_of_side hf.nodup hr) hrR hback
        refine ⟨r, hr, hrR, ?_⟩
        rw [hrr', Prod.swap_swap]
        exact hr'
      · exact absurd (Prod.swap_swap R ▸ hin'.swap) (not_inner_of_half hm hf hg hr hrR)
      · exact absurd hin.swap (not_inner_of_half hm hg hf hr' hrR')
      · exact absurd (folded_of_inner hm hf hg hfg.disjoint hin (Prod.swap_swap R ▸ hin'.swap))
          hfg.not_folded
    obtain ⟨p, hp, hpP, hp'⟩ := hside P hP hP'
    obtain ⟨q, hq, hqQ, hq'⟩ := hside Q hQ hQ'
    refine hfg.not_folded ⟨p, hp, q, hq, ?_, hp', hq'⟩
    rintro rfl
    have hold : ∀ {x y}, x ∈ F.corners → y ∈ F.corners → x ∈ V → y ∈ V → x = y := fun hx hy =>
      old_corner_unique hm hf hF hx hy
    have hV := hf.side_mem hp
    have hne := ne_of_side hf.nodup hp
    have hPc := mem_corners_of_side hP
    have hQc := mem_corners_of_side hQ
    rcases hpP with rfl | rfl <;> rcases hqQ with rfl | rfl
    · exact hPQ rfl
    · exact hne (hold hPc.1 hQc.2 hV.1 hV.2)
    · exact hne (hold hQc.1 hPc.2 hV.1 hV.2)
    · exact hPQ rfl

omit hg

theorem midpoint_ne (hp : p ∈ f.sides) (hq : q ∈ f.sides) (hpq : p ≠ q) :
    μ (edge p) ≠ μ (edge q) := by
  intro h
  rcases edge_eq_iff.1 (hm.inj (hf.sides p hp) (hf.sides q hq) h) with h | h
  · exact hpq h
  · exact swap_notMem_sides hf.nodup hq (h ▸ hp)

theorem points_nodup :
    [f.a, f.b, f.c, μ (edge (f.a, f.b)), μ (edge (f.b, f.c)), μ (edge (f.c, f.a))].Nodup := by
  have hold : ∀ x ∈ f.corners, ∀ p ∈ f.sides, x ≠ μ (edge p) := by
    rintro x hx p hp rfl
    exact midpoint_notMem hm hf hp (hf.corners _ hx)
  have hnew : ∀ p ∈ f.sides, ∀ q ∈ f.sides, p ≠ q → μ (edge p) ≠ μ (edge q) := fun p hp q hq =>
    midpoint_ne hm hf hp hq
  have hc := hf.nodup
  simp only [corners, sides, List.forall_mem_cons, List.not_mem_nil, false_implies,
    implies_true, and_true] at hold hnew
  simp only [corners, List.nodup_cons, List.mem_cons, List.not_mem_nil, or_false, not_or,
    not_false_eq_true, List.nodup_nil, and_true] at hc ⊢
  grind

theorem quarters_nodup (hF : F ∈ f.quarters μ) : F.corners.Nodup := by
  have h := points_nodup hm hf
  simp only [List.nodup_cons, List.mem_cons, List.not_mem_nil, or_false, not_or] at h
  simp only [quarters, List.mem_cons, List.not_mem_nil, or_false] at hF
  rcases hF with rfl | rfl | rfl | rfl <;>
    simp only [corners, List.nodup_cons, List.mem_cons, List.not_mem_nil, or_false, not_or,
      not_false_eq_true, List.nodup_nil, and_true] <;> grind

theorem quarters_pairwise : (f.quarters μ).Pairwise Apart := by
  have h := points_nodup hm hf
  simp only [quarters]
  generalize μ (edge (f.a, f.b)) = ab at h ⊢
  generalize μ (edge (f.b, f.c)) = bc at h ⊢
  generalize μ (edge (f.c, f.a)) = ca at h ⊢
  obtain ⟨a, b, c⟩ := f
  simp only [List.nodup_cons, List.mem_cons, List.not_mem_nil, or_false, not_or,
    not_false_eq_true, List.nodup_nil, and_true] at h
  simp only [List.pairwise_cons, List.mem_cons, List.not_mem_nil, or_false, forall_eq_or_imp,
    forall_eq, List.Pairwise.nil, and_true, false_implies, implies_true]
  refine ⟨⟨?_, ?_, ?_⟩, ⟨?_, ?_⟩, ?_⟩ <;> apply apart_of <;>
    simp only [sides, List.mem_cons, List.not_mem_nil, or_false] <;> grind

end Midpoints

end Face

theorem Closed.quarters {fs : List (Face α)} {μ : Sym2 α → α} {V : Set α} {E : Set (Sym2 α)}
    (h : Closed fs) (hm : Midpoints V E μ) (hfs : ∀ f ∈ fs, f.Within V E) :
    Closed (fs.flatMap (Face.quarters μ)) where
  corners := by
    intro F hF
    obtain ⟨f, hf, hF⟩ := List.mem_flatMap.1 hF
    exact quarters_nodup hm (hfs f hf) hF
  apart := by
    rw [List.pairwise_flatMap]
    refine ⟨fun f hf => quarters_pairwise hm (hfs f hf), ?_⟩
    refine h.apart.imp_of_mem fun hf hg hfg F hF G hG => ?_
    exact quarters_apart hm (hfs _ hf) (hfs _ hg) hfg hF hG
  swap := by
    intro F hF e he
    obtain ⟨f, hf, hF⟩ := List.mem_flatMap.1 hF
    rcases side_quarters (h.corners f hf) hF he with ⟨p, hp, hpe⟩ | hin
    · obtain ⟨g, hg, hpg⟩ := h.swap f hf p hp
      obtain ⟨G, hG, heG⟩ := exists_quarter_of_half hpg hpe.swap
      exact ⟨G, List.mem_flatMap.2 ⟨g, hg, hG⟩, heG⟩
    · obtain ⟨G, hG, heG⟩ := exists_quarter_of_inner hin.swap
      exact ⟨G, List.mem_flatMap.2 ⟨f, hf, hG⟩, heG⟩

end PureDataPacket
