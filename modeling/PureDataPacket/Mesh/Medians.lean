/-
# `PureDataPacket.Mesh.Medians` — triangles that are divided into four

`mesh_split_all_four` takes the triangles one after the other, and until it is
done the mesh is no closed surface: the sides of a divided triangle have a
vertex in the middle, those of the triangles that wait have none.

What fits in the end is the midpoints.  `μ` gives every edge in `E`, the edges
that have been met, one new vertex, and the slots of a triangle that waits are
`μ` on its sides.  A triangle that needs a midpoint and does not have it makes
it, and the one other triangle with this side, which waits, is told.

| | |
| :-- | :-- |
| `Slots` | the triangle has the median vertices of its sides |
| `Partway` | some triangles have been divided |
| `exists_neighbour` | a side without a midpoint has a triangle that waits on its other side |
| `getMedian` | one side |
| `splitFour` | one triangle |
| `splitFours` | the loop |
-/
import PureDataPacket.Mesh.Subdivision

namespace PureDataPacket

namespace Mesh

/-- The median vertex of a side. -/
def slot (μ : Sym2 Nat → Nat) (E : Finset (Sym2 Nat)) (e : Nat × Nat) : Option Nat :=
  if edge e ∈ E then some (μ (edge e)) else none

/-- The triangle has the median vertices of its sides. -/
structure Slots (μ : Sym2 Nat → Nat) (E : Finset (Sym2 Nat)) (x : Triangle) : Prop where
  m0 : x.m0 = slot μ E (x.v0, x.v1)
  m1 : x.m1 = slot μ E (x.v1, x.v2)
  m2 : x.m2 = slot μ E (x.v2, x.v0)

/-- `m₀` after the triangles `done` have been divided, where `todo` are still to be.  Those in
`waiting` have their median vertices. -/
structure Partway (m₀ : Mesh) (μ : Sym2 Nat → Nat) (E : Finset (Sym2 Nat))
    (done todo waiting : List Nat) (m : Mesh) : Prop where
  joined : Joined m
  perm : m₀.triangles.Perm (done ++ todo)
  sub : waiting ⊆ todo
  todo_mem : ∀ t ∈ todo, t ∈ m.triangles ∧ m.face t = m₀.face t
  other : ∀ t ∈ m.triangles, t ∉ todo →
    (∃ s ∈ done, m.face t ∈ (m₀.face s).quarters μ) ∧ Blank (m.tri t)
  faces : m.faces.Perm ((done.map m₀.face).flatMap (Face.quarters μ) ++ todo.map m₀.face)
  midpoints : Midpoints {v | v ∈ m₀.vertices} {s | s ∈ E} μ
  midpoint_mem : ∀ s ∈ E, μ s ∈ m.vertices
  vertices : ∀ v ∈ m₀.vertices, v ∈ m.vertices
  length : m.vertices.length = m₀.vertices.length + E.card
  done_edges : ∀ t ∈ done, ∀ e ∈ (m₀.face t).sides, edge e ∈ E
  slots : ∀ t ∈ waiting, Slots μ E (m.tri t)

variable {A : MeshAlloc} {m₀ m : Mesh} {μ μ' : Sym2 Nat → Nat} {E : Finset (Sym2 Nat)}
  {done rest todo waiting : List Nat} {t : Nat} {e : Nat × Nat}

/-! ## Slots -/

theorem slot_insert (w : Nat) (p : Nat × Nat) :
    slot (Function.update μ (edge e) w) (insert (edge e) E) p =
      if edge p = edge e then some w else slot μ E p := by
  by_cases h : edge p = edge e
  · simp [slot, h]
  · simp [slot, h]

theorem update_edge_of_mem (hE : edge e ∉ E) {r : Sym2 Nat} (hr : r ∈ E) (w : Nat) :
    Function.update μ (edge e) w r = μ r := by
  have hre : r ≠ edge e := fun heq => hE (heq ▸ hr)
  exact Function.update_of_ne hre ..

/-- The slot that `triangle_add_median` takes is that of the side. -/
theorem tri_triangleAddMedian (m : Mesh) {s : Nat} (w : Nat) (hs : (m.face s).corners.Nodup)
    (he : e.swap ∈ (m.face s).sides) :
    (m.triangleAddMedian s e.1 e.2 w).tri s =
      { m.tri s with
        m0 := if edge ((m.tri s).v0, (m.tri s).v1) = edge e then some w else (m.tri s).m0
        m1 := if edge ((m.tri s).v1, (m.tri s).v2) = edge e then some w else (m.tri s).m1
        m2 := if edge ((m.tri s).v2, (m.tri s).v0) = edge e then some w else (m.tri s).m2 } := by
  obtain ⟨y, x⟩ := e
  simp only [triangleAddMedian, Function.update_self]
  simp only [face, Face.corners, List.nodup_cons, List.mem_cons, List.not_mem_nil, or_false,
    not_or] at hs
  simp only [face, Face.sides, Prod.swap_prod_mk, List.mem_cons, List.not_mem_nil, or_false,
    Prod.mk.injEq] at he
  obtain ⟨⟨h01, h02⟩, h12, -⟩ := hs
  rcases he with ⟨rfl, rfl⟩ | ⟨rfl, rfl⟩ | ⟨rfl, rfl⟩
  · simp [edge, h01, h02, h12, Ne.symm h01, Ne.symm h02, Ne.symm h12]
  · simp [edge, h01, h02, h12, Ne.symm h01, Ne.symm h02, Ne.symm h12]
  · simp [edge, h02, h12, Ne.symm h01, Ne.symm h02]

theorem face_triangleAddMedian (m : Mesh) (s v0 v1 w u : Nat) :
    (m.triangleAddMedian s v0 v1 w).face u = m.face u := by
  by_cases h : u = s
  · subst h
    simp only [face, triangleAddMedian, Function.update_self]
    split
    · rfl
    · split <;> rfl
  · simp only [face, triangleAddMedian, Function.update_of_ne h]

theorem Joined.triangleAddMedian (h : Joined m) (s v0 v1 w : Nat) :
    Joined (m.triangleAddMedian s v0 v1 w) where
  triangles_nodup := h.triangles_nodup
  vertices_nodup := h.vertices_nodup
  corners_nodup := fun t ht => by
    rw [face_triangleAddMedian]
    exact h.corners_nodup t ht
  corners_mem := fun t ht => by
    rw [face_triangleAddMedian]
    exact h.corners_mem t ht
  trilist_nodup := h.trilist_nodup
  mem_trilist := fun v hv t => by
    rw [face_triangleAddMedian]
    exact h.mem_trilist v hv t

/-! ## The neighbour -/

/-- The neighbour that is found, where there is only one to be found. -/
theorem triangleNeighbour_eq (h : Joined m) {s v0 v1 : Nat} (h0 : v0 ∈ m.vertices)
    (h1 : v1 ∈ m.vertices) (hs : s ∈ m.triangles) (hst : s ≠ t)
    (hs0 : v0 ∈ (m.face s).corners) (hs1 : v1 ∈ (m.face s).corners)
    (huniq : ∀ u ∈ m.triangles, u ≠ t → v0 ∈ (m.face u).corners → v1 ∈ (m.face u).corners →
      u = s) : m.triangleNeighbour id t v0 v1 = some s := by
  have hmem : s ∈ (m.vtx v1).trilist := (h.mem_trilist v1 h1 s).2 ⟨hs, hs1⟩
  have hmem0 : s ∈ (m.vtx v0).trilist := (h.mem_trilist v0 h0 s).2 ⟨hs, hs0⟩
  cases hfind : m.triangleNeighbour id t v0 v1 with
  | none =>
      have hnone := List.find?_eq_none.1 hfind s hmem
      exact absurd (by simp [hst, hmem0]) hnone
  | some u =>
      have hpred := List.find?_some hfind
      have hu1 := (h.mem_trilist v1 h1 u).1 (List.mem_of_find?_eq_some hfind)
      simp only [ne_eq, Bool.and_eq_true, decide_eq_true_eq, listContainsPointer_id,
        List.contains_iff_mem] at hpred
      have hu0 := (h.mem_trilist v0 h0 u).1 hpred.2
      rw [huniq u hu1.1 hpred.1 hu0.2 hu1.2]

namespace Partway

variable (hj₀ : Joined m₀) (hc₀ : Closed m₀.faces)

theorem mem₀ (h : Partway m₀ μ E done todo waiting m) {s : Nat} :
    s ∈ m₀.triangles ↔ s ∈ done ∨ s ∈ todo := by
  rw [h.perm.mem_iff, List.mem_append]

/-- A new midpoint is not one of the old. -/
theorem midpoints_insert (h : Partway m₀ μ E done todo waiting m) (hE : edge e ∉ E) {w : Nat}
    (hw : w ∉ m.vertices) :
    Midpoints {v | v ∈ m₀.vertices} {s | s ∈ insert (edge e) E}
      (Function.update μ (edge e) w) := by
  have hkeep : ∀ r ∈ E, Function.update μ (edge e) w r = μ r := fun r hr =>
    update_edge_of_mem hE hr w
  have hnew : ∀ r ∈ E, μ r ≠ w := fun r hr heq => hw (heq ▸ h.midpoint_mem r hr)
  refine ⟨?_, ?_⟩
  · intro r hr
    rcases Finset.mem_insert.1 hr with rfl | hr
    · rw [Function.update_self]
      exact fun hw₀ => hw (h.vertices _ hw₀)
    · rw [hkeep r hr]
      exact h.midpoints.new r hr
  · intro r hr r' hr' heq
    rcases Finset.mem_insert.1 hr with rfl | hr <;>
      rcases Finset.mem_insert.1 hr' with rfl | hr'
    · rfl
    · rw [Function.update_self, hkeep r' hr'] at heq
      exact absurd heq.symm (hnew r' hr')
    · rw [Function.update_self, hkeep r hr] at heq
      exact absurd heq (hnew r hr)
    · rw [hkeep r hr, hkeep r' hr'] at heq
      exact h.midpoints.inj hr hr' heq

include hj₀

theorem within (h : Partway m₀ μ E done todo waiting m) {s : Nat} (hs : s ∈ done) :
    (m₀.face s).Within {v | v ∈ m₀.vertices} {s | s ∈ E} where
  nodup := hj₀.corners_nodup s (h.mem₀.2 (Or.inl hs))
  corners := hj₀.corners_mem s (h.mem₀.2 (Or.inl hs))
  sides := h.done_edges s hs

include hc₀

/-- A triangle of the mesh with both ends of a side is the one on the other side of it. -/
theorem eq_neighbour (h : Partway m₀ μ E done (t :: rest) waiting m)
    (he : e ∈ (m₀.face t).sides) {s : Nat} (hs : s ∈ m₀.triangles)
    (hes : e.swap ∈ (m₀.face s).sides) {u : Nat} (hu : u ∈ m.triangles) (hut : u ≠ t)
    (h1 : e.1 ∈ (m.face u).corners) (h2 : e.2 ∈ (m.face u).corners) : u = s := by
  have ht₀ : t ∈ m₀.triangles := h.mem₀.2 (Or.inr List.mem_cons_self)
  have hne := Face.ne_of_side (hj₀.corners_nodup t ht₀) he
  by_cases htodo : u ∈ t :: rest
  · have hu₀ : u ∈ m₀.triangles := h.mem₀.2 (Or.inr htodo)
    rw [(h.todo_mem u htodo).2] at h1 h2
    rcases Face.side_of_corners h1 h2 hne with hside | hside
    · exact absurd (eq_of_side hc₀ hu₀ ht₀ hside he) hut
    · exact eq_of_side hc₀ hu₀ hs hside hes
  · -- a part of a divided triangle has only one vertex of the old mesh
    obtain ⟨⟨d, hd, hquarter⟩, -⟩ := h.other u hu htodo
    have hmem := Face.mem_corners_of_side he
    have hold := Face.old_corner_unique h.midpoints (h.within hj₀ hd) hquarter h1 h2
      (hj₀.corners_mem t ht₀ _ hmem.1) (hj₀.corners_mem t ht₀ _ hmem.2)
    exact absurd hold hne

theorem exists_neighbour (h : Partway m₀ μ E done (t :: rest) waiting m)
    (he : e ∈ (m₀.face t).sides) (hE : edge e ∉ E) :
    ∃ s ∈ rest, s ≠ t ∧ e.swap ∈ (m₀.face s).sides := by
  have ht₀ : t ∈ m₀.triangles := h.mem₀.2 (Or.inr List.mem_cons_self)
  obtain ⟨g, hg, heg⟩ := hc₀.swap _ (mem_faces.2 ⟨t, ht₀, rfl⟩) e he
  obtain ⟨s, hs, rfl⟩ := mem_faces.1 hg
  have hst : s ≠ t := by
    rintro rfl
    exact Face.swap_notMem_sides (hj₀.corners_nodup s hs) he heg
  rcases h.mem₀.1 hs with hd | htodo
  · exact absurd (edge_swap e ▸ h.done_edges s hd _ heg) hE
  · exact ⟨s, (List.mem_cons.1 htodo).resolve_left hst, hst, heg⟩

/-- The triangle that is told has the new midpoint in its slot, and no other needs it. -/
theorem slots_addMedian (h : Partway m₀ μ E done (t :: rest) rest m)
    (he : e ∈ (m₀.face t).sides) {s : Nat} (hs : s ∈ rest) (hes : e.swap ∈ (m₀.face s).sides)
    {u : Nat} (hu : u ∈ rest) :
    Slots (Function.update μ (edge e) (A.vertex m)) (insert (edge e) E)
      (((m.meshVertexAdd A).2.triangleAddMedian s e.1 e.2 (A.vertex m)).tri u) := by
  have ht₀ : t ∈ m₀.triangles := h.mem₀.2 (Or.inr List.mem_cons_self)
  have hu₀ : u ∈ m₀.triangles := h.mem₀.2 (Or.inr (List.mem_cons_of_mem _ hu))
  have hfu := (h.todo_mem u (List.mem_cons_of_mem _ hu)).2
  obtain ⟨h0, h1, h2⟩ := h.slots u hu
  by_cases hus : u = s
  · subst hus
    have hspec := tri_triangleAddMedian (m.meshVertexAdd A).2 (A.vertex m) (s := u) (e := e)
      (by
        change (m.face u).corners.Nodup
        rw [hfu]
        exact hj₀.corners_nodup u hu₀)
      (by
        change e.swap ∈ (m.face u).sides
        rwa [hfu])
    rw [hspec]
    change Slots _ _ { m.tri u with m0 := _, m1 := _, m2 := _ }
    exact ⟨by rw [slot_insert, ← h0]; rfl, by rw [slot_insert, ← h1]; rfl,
      by rw [slot_insert, ← h2]; rfl⟩
  · -- a third triangle does not have this edge
    have hs₀ : s ∈ m₀.triangles := h.mem₀.2 (Or.inr (List.mem_cons_of_mem _ hs))
    have hut : u ≠ t := by
      rintro rfl
      have hnd := h.perm.nodup_iff.1 hj₀.triangles_nodup
      exact (List.nodup_cons.1 (List.nodup_append.1 hnd).2.1).1 hu
    have hno : ∀ p ∈ (m.face u).sides, edge p ≠ edge e := by
      intro p hp heq
      rw [hfu] at hp
      rcases edge_eq_iff.1 heq with rfl | rfl
      · exact hut (eq_of_side hc₀ hu₀ ht₀ hp he)
      · exact hus (eq_of_side hc₀ hu₀ hs₀ hp hes)
    have htri : ((m.meshVertexAdd A).2.triangleAddMedian s e.1 e.2 (A.vertex m)).tri u =
        m.tri u := Function.update_of_ne hus ..
    simp only [face, Face.sides, List.forall_mem_cons] at hno
    rw [htri]
    exact ⟨by rw [slot_insert, if_neg hno.1, h0], by rw [slot_insert, if_neg hno.2.1, h1],
      by rw [slot_insert, if_neg hno.2.2.1, h2]⟩

/-- A new midpoint, and the triangle on the other side that is told. -/
theorem addMedian (h : Partway m₀ μ E done (t :: rest) rest m) (he : e ∈ (m₀.face t).sides)
    (hE : edge e ∉ E) {s : Nat} (hs : s ∈ rest) (hes : e.swap ∈ (m₀.face s).sides) :
    Partway m₀ (Function.update μ (edge e) (A.vertex m)) (insert (edge e) E) done (t :: rest) rest
      ((m.meshVertexAdd A).2.triangleAddMedian s e.1 e.2 (A.vertex m)) := by
  have hkeep : ∀ r ∈ E, Function.update μ (edge e) (A.vertex m) r = μ r := fun r hr =>
    update_edge_of_mem hE hr _
  have hquarters : ∀ d ∈ done, (m₀.face d).quarters (Function.update μ (edge e) (A.vertex m)) =
      (m₀.face d).quarters μ := fun d hd =>
    Face.quarters_congr fun p hp => hkeep _ (h.done_edges d hd p hp)
  have hface : ∀ u, ((m.meshVertexAdd A).2.triangleAddMedian s e.1 e.2 (A.vertex m)).face u =
      m.face u := fun u => face_triangleAddMedian ..
  have htri : ∀ u, u ≠ s →
      ((m.meshVertexAdd A).2.triangleAddMedian s e.1 e.2 (A.vertex m)).tri u = m.tri u :=
    fun u hu => Function.update_of_ne hu ..
  refine ⟨h.joined.vertexAdd.triangleAddMedian .., h.perm, h.sub, ?_, ?_, ?_, ?_, ?_, ?_, ?_, ?_,
    ?_⟩
  · intro u hu
    rw [hface]
    exact h.todo_mem u hu
  · intro u hu hnot
    obtain ⟨⟨d, hd, hquarter⟩, hblank⟩ := h.other u hu hnot
    have hus : u ≠ s := fun heq => hnot (heq ▸ List.mem_cons_of_mem _ hs)
    rw [hface, htri u hus]
    exact ⟨⟨d, hd, hquarters d hd ▸ hquarter⟩, hblank⟩
  · have hfaces : ((m.meshVertexAdd A).2.triangleAddMedian s e.1 e.2 (A.vertex m)).faces =
        m.faces := List.map_congr_left fun u _ => hface u
    have hsame : (done.map m₀.face).flatMap
        (Face.quarters (Function.update μ (edge e) (A.vertex m))) =
          (done.map m₀.face).flatMap (Face.quarters μ) := by
      rw [List.flatMap_map, List.flatMap_map]
      exact List.flatMap_congr hquarters
    rw [hfaces, hsame]
    exact h.faces
  · exact h.midpoints_insert hE (A.vertex_notMem m)
  · intro r hr
    rcases Finset.mem_insert.1 hr with rfl | hr
    · rw [Function.update_self]
      exact List.mem_cons_self
    · rw [hkeep r hr]
      exact List.mem_cons_of_mem _ (h.midpoint_mem r hr)
  · exact fun v hv => List.mem_cons_of_mem _ (h.vertices v hv)
  · rw [Finset.card_insert_of_notMem hE]
    have hlen := h.length
    change (A.vertex m :: m.vertices).length = _
    rw [List.length_cons]
    omega
  · exact fun d hd p hp => Finset.mem_insert_of_mem (h.done_edges d hd p hp)
  · exact fun u hu => h.slots_addMedian hj₀ hc₀ he hs hes hu

/-- `GET_MEDIAN`: the triangle that is being divided gets the midpoint of a side. -/
theorem getMedian (h : Partway m₀ μ E done (t :: rest) rest m) (he : e ∈ (m₀.face t).sides) :
    ∃ μ', Partway m₀ μ' (insert (edge e) E) done (t :: rest) rest
        (m.getMedian id A t (slot μ E e) e.1 e.2).2 ∧
      (m.getMedian id A t (slot μ E e) e.1 e.2).1 = μ' (edge e) ∧ ∀ r ∈ E, μ' r = μ r := by
  by_cases hE : edge e ∈ E
  · rw [Finset.insert_eq_of_mem hE]
    simp only [slot, if_pos hE, Mesh.getMedian]
    exact ⟨μ, h, rfl, fun _ _ => rfl⟩
  · obtain ⟨s, hs, hst, hes⟩ := h.exists_neighbour hj₀ hc₀ he hE
    have hs₀ : s ∈ m₀.triangles := h.mem₀.2 (Or.inr (List.mem_cons_of_mem _ hs))
    have hmem := Face.mem_corners_of_side hes
    have hsm := h.todo_mem s (List.mem_cons_of_mem _ hs)
    have hfind : (m.meshVertexAdd A).2.triangleNeighbour id t e.1 e.2 = some s := by
      refine triangleNeighbour_eq h.joined.vertexAdd ?_ ?_ hsm.1 hst ?_ ?_ ?_
      · exact List.mem_cons_of_mem _ (h.vertices _ (hj₀.corners_mem s hs₀ _ hmem.2))
      · exact List.mem_cons_of_mem _ (h.vertices _ (hj₀.corners_mem s hs₀ _ hmem.1))
      · change e.1 ∈ (m.face s).corners
        rw [hsm.2]
        exact hmem.2
      · change e.2 ∈ (m.face s).corners
        rw [hsm.2]
        exact hmem.1
      · exact fun u hu hut h1 h2 => h.eq_neighbour hj₀ hc₀ he hs₀ hes hu hut h1 h2
    have hget : m.getMedian id A t (slot μ E e) e.1 e.2 =
        (A.vertex m, (m.meshVertexAdd A).2.triangleAddMedian s e.1 e.2 (A.vertex m)) := by
      simp only [slot, if_neg hE, Mesh.getMedian, hfind]
      rfl
    rw [hget]
    refine ⟨_, h.addMedian hj₀ hc₀ he hE hs hes, by rw [Function.update_self], fun r hr => ?_⟩
    exact update_edge_of_mem hE hr _

end Partway

/-! ## Four triangles for one -/

theorem slot_insert_of_ne (hμ : ∀ r ∈ E, μ' r = μ r) {p : Nat × Nat} (hp : edge p ≠ edge e) :
    slot μ' (insert (edge e) E) p = slot μ E p := by
  by_cases hE : edge p ∈ E
  · simp [slot, hE, hμ]
  · simp [slot, hE, hp]

/-- `mesh_split_four`, with the median vertices that it has found or made. -/
theorem meshSplitFour_eq (word : Nat → Nat) (A : MeshAlloc) (m : Mesh) (t : Nat) :
    m.meshSplitFour word A t =
      let r3 := m.getMedian word A t (m.tri t).m0 (m.face t).a (m.face t).b
      let r4 := r3.2.getMedian word A t (m.tri t).m1 (m.face t).b (m.face t).c
      let r5 := r4.2.getMedian word A t (m.tri t).m2 (m.face t).c (m.face t).a
      addFaces word A (r5.2.meshTriangleRemove word t)
        [⟨(m.face t).a, r3.1, r5.1⟩, ⟨(m.face t).b, r4.1, r3.1⟩, ⟨(m.face t).c, r5.1, r4.1⟩,
          ⟨r3.1, r4.1, r5.1⟩] := by
  simp only [meshSplitFour, addFaces, List.foldl_cons, List.foldl_nil, face]

namespace Partway

variable (hj₀ : Joined m₀) (hc₀ : Closed m₀.faces)

include hj₀ hc₀

theorem getMedians (h : Partway m₀ μ E done (t :: rest) (t :: rest) m) :
    ∃ μ' E' m', Partway m₀ μ' E' done (t :: rest) rest m' ∧
      (∀ r, r ∈ E' ↔ r ∈ E ∨ ∃ p ∈ (m₀.face t).sides, edge p = r) ∧
      m.meshSplitFour id A t =
        addFaces id A (m'.meshTriangleRemove id t) ((m₀.face t).quarters μ') := by
  have ht₀ : t ∈ m₀.triangles := h.mem₀.2 (Or.inr List.mem_cons_self)
  have hface := (h.todo_mem t List.mem_cons_self).2
  have hslots := h.slots t List.mem_cons_self
  have hnd := hj₀.corners_nodup t ht₀
  have hrest : Partway m₀ μ E done (t :: rest) rest m :=
    { h with
      sub := fun u hu => List.mem_cons_of_mem _ hu
      slots := fun u hu => h.slots u (List.mem_cons_of_mem _ hu) }
  set f := m₀.face t with hf
  have hne : ∀ {p q}, p ∈ f.sides → q ∈ f.sides → p ≠ q → edge p ≠ edge q := by
    intro p q hp hq hpq heq
    rcases edge_eq_iff.1 heq with heq | heq
    · exact hpq heq
    · exact Face.swap_notMem_sides hnd hq (heq ▸ hp)
  have hp0 : (f.a, f.b) ∈ f.sides := by simp [Face.sides]
  have hp1 : (f.b, f.c) ∈ f.sides := by simp [Face.sides]
  have hp2 : (f.c, f.a) ∈ f.sides := by simp [Face.sides]
  have hsides := Face.sides_nodup hnd
  simp only [Face.sides, List.nodup_cons, List.mem_cons, List.not_mem_nil, or_false,
    not_or] at hsides
  obtain ⟨⟨h01, h02⟩, h12, -⟩ := hsides
  have hm0 : (m.tri t).m0 = slot μ E (f.a, f.b) := by rw [hslots.m0, ← hface]; rfl
  have hm1 : (m.tri t).m1 = slot μ E (f.b, f.c) := by rw [hslots.m1, ← hface]; rfl
  have hm2 : (m.tri t).m2 = slot μ E (f.c, f.a) := by rw [hslots.m2, ← hface]; rfl
  obtain ⟨μ3, h3, hv3, hμ3⟩ := hrest.getMedian (A := A) hj₀ hc₀ hp0
  obtain ⟨μ4, h4, hv4, hμ4⟩ := h3.getMedian (A := A) hj₀ hc₀ hp1
  obtain ⟨μ5, h5, hv5, hμ5⟩ := h4.getMedian (A := A) hj₀ hc₀ hp2
  have h1' : slot μ3 (insert (edge (f.a, f.b)) E) (f.b, f.c) = slot μ E (f.b, f.c) :=
    slot_insert_of_ne hμ3 (hne hp1 hp0 (Ne.symm h01))
  have h2' : slot μ4 (insert (edge (f.b, f.c)) (insert (edge (f.a, f.b)) E)) (f.c, f.a) =
      slot μ E (f.c, f.a) :=
    (slot_insert_of_ne hμ4 (hne hp2 hp1 (Ne.symm h12))).trans
      (slot_insert_of_ne hμ3 (hne hp2 hp0 (Ne.symm h02)))
  rw [h1'] at h4 hv4 h5 hv5
  rw [h2'] at h5 hv5
  have hv4' : μ4 (edge (f.b, f.c)) = μ5 (edge (f.b, f.c)) :=
    (hμ5 _ (Finset.mem_insert_self ..)).symm
  have hv3' : μ3 (edge (f.a, f.b)) = μ5 (edge (f.a, f.b)) :=
    ((hμ5 _ (Finset.mem_insert_of_mem (Finset.mem_insert_self ..))).trans
      (hμ4 _ (Finset.mem_insert_self ..))).symm
  refine ⟨μ5, _, _, h5, fun r => ?_, ?_⟩
  · simp only [Finset.mem_insert, Face.sides, List.mem_cons, List.not_mem_nil, or_false,
      exists_eq_or_imp, exists_eq_left]
    constructor
    · rintro (rfl | rfl | rfl | hr)
      · exact Or.inr (Or.inr (Or.inr rfl))
      · exact Or.inr (Or.inr (Or.inl rfl))
      · exact Or.inr (Or.inl rfl)
      · exact Or.inl hr
    · rintro (hr | rfl | rfl | rfl)
      · exact Or.inr (Or.inr (Or.inr hr))
      · exact Or.inr (Or.inr (Or.inl rfl))
      · exact Or.inr (Or.inl rfl)
      · exact Or.inl rfl
  · rw [meshSplitFour_eq]
    simp only [hface, hm0, hm1, hm2, hv5]
    simp only [hv4, hv3, hv4', hv3', Face.quarters]

theorem splitFour (h : Partway m₀ μ E done (t :: rest) (t :: rest) m) :
    ∃ μ' E', Partway m₀ μ' E' (t :: done) rest rest (m.meshSplitFour id A t) ∧
      ∀ r, r ∈ E' ↔ r ∈ E ∨ ∃ p ∈ (m₀.face t).sides, edge p = r := by
  obtain ⟨μ', E', m', h', hE', heq⟩ := h.getMedians (A := A) hj₀ hc₀
  have ht₀ : t ∈ m₀.triangles := h.mem₀.2 (Or.inr List.mem_cons_self)
  obtain ⟨htm, hface⟩ := h'.todo_mem t List.mem_cons_self
  have htrest : t ∉ rest := by
    have hnd := h.perm.nodup_iff.1 hj₀.triangles_nodup
    exact (List.nodup_cons.1 (List.nodup_append.1 hnd).2.1).1
  have hwithin : (m₀.face t).Within {v | v ∈ m₀.vertices} {s | s ∈ E'} :=
    ⟨hj₀.corners_nodup t ht₀, hj₀.corners_mem t ht₀, fun p hp => (hE' _).2 (Or.inr ⟨p, hp, rfl⟩)⟩
  have hgrown : Grown (m'.meshTriangleRemove id t) ((m₀.face t).quarters μ')
      (m.meshSplitFour id A t) := by
    rw [heq]
    refine grown_addFaces A (h'.joined.triangleRemove htm) fun F hF => ⟨?_, ?_⟩
    · exact Face.quarters_nodup h'.midpoints hwithin hF
    · intro v hv
      rw [vertices_triangleRemove]
      rcases Face.corner_quarters hF hv with hv | ⟨p, hp, rfl⟩
      · exact h'.vertices v (hwithin.corners v hv)
      · exact h'.midpoint_mem _ (hwithin.sides p hp)
  have hleft : ∀ u, u ∈ (m'.meshTriangleRemove id t).triangles ↔ u ≠ t ∧ u ∈ m'.triangles := by
    intro u
    rw [triangles_triangleRemove]
    exact h'.joined.triangles_nodup.mem_erase_iff
  have hkept : ∀ u ∈ m'.triangles, u ≠ t → u ∈ (m.meshSplitFour id A t).triangles ∧
      (m.meshSplitFour id A t).tri u = m'.tri u := by
    intro u hu hut
    obtain ⟨hmem, htri⟩ := hgrown.old u ((hleft u).2 ⟨hut, hu⟩)
    exact ⟨hmem, htri.trans (tri_triangleRemove hut)⟩
  have hkeptFace : ∀ u ∈ m'.triangles, u ≠ t → (m.meshSplitFour id A t).face u = m'.face u := by
    intro u hu hut
    simp only [face, (hkept u hu hut).2]
  have hverts : (m.meshSplitFour id A t).vertices = m'.vertices := by
    rw [hgrown.vertices, vertices_triangleRemove]
  refine ⟨μ', E', ⟨hgrown.joined, ?_, fun u hu => hu, ?_, ?_, ?_, h'.midpoints, ?_, ?_, ?_, ?_,
    ?_⟩, hE'⟩
  · exact h.perm.trans List.perm_middle
  · intro u hu
    have hut : u ≠ t := fun heq => htrest (heq ▸ hu)
    obtain ⟨hmem, hfu⟩ := h'.todo_mem u (List.mem_cons_of_mem _ hu)
    exact ⟨(hkept u hmem hut).1, (hkeptFace u hmem hut).trans hfu⟩
  · intro u hu hnot
    by_cases hold : u ∈ (m'.meshTriangleRemove id t).triangles
    · obtain ⟨hut, hu'⟩ := (hleft u).1 hold
      have hnot' : u ∉ t :: rest := fun hmem => hnot ((List.mem_cons.1 hmem).resolve_left hut)
      obtain ⟨⟨d, hd, hquarter⟩, hblank⟩ := h'.other u hu' hnot'
      rw [hkeptFace u hu' hut, (hkept u hu' hut).2]
      exact ⟨⟨d, List.mem_cons_of_mem _ hd, hquarter⟩, hblank⟩
    · obtain ⟨hquarter, hblank⟩ := hgrown.new u hu hold
      exact ⟨⟨t, List.mem_cons_self, hquarter⟩, hblank⟩
  · have hrem := faces_triangleRemove h'.joined.triangles_nodup htm
    have hperm := hrem.symm.trans h'.faces
    rw [hface, List.map_cons] at hperm
    have hcancel := (hperm.trans List.perm_middle).cons_inv
    rw [List.map_cons, List.flatMap_cons, List.append_assoc]
    exact hgrown.faces.trans (hcancel.append_left _)
  · rw [hverts]
    exact h'.midpoint_mem
  · rw [hverts]
    exact h'.vertices
  · rw [hverts]
    exact h'.length
  · intro d hd
    rcases List.mem_cons.1 hd with rfl | hd
    · exact hwithin.sides
    · exact h'.done_edges d hd
  · intro u hu
    have hut : u ≠ t := fun heq => htrest (heq ▸ hu)
    rw [(hkept u (h'.todo_mem u (List.mem_cons_of_mem _ hu)).1 hut).2]
    exact h'.slots u hu

/-- The loop of `mesh_split_all_four`. -/
theorem splitFours {todo : List Nat} :
    ∀ {μ E done m}, Partway m₀ μ E done todo todo m → E = edges (done.map m₀.face) →
      ∃ μ', Partway m₀ μ' (edges m₀.faces) (todo.reverse ++ done) [] []
        (todo.foldl (meshSplitFour id A) m) := by
  induction todo with
  | nil =>
      rintro μ E done m h rfl
      have hperm := h.perm
      rw [List.append_nil] at hperm
      have hedges : edges (done.map m₀.face) = edges m₀.faces :=
        edges_perm (hperm.symm.map m₀.face)
      exact ⟨μ, hedges ▸ h⟩
  | cons t todo ih =>
      rintro μ E done m h rfl
      obtain ⟨μ', E', h', hE'⟩ := h.splitFour (A := A) hj₀ hc₀
      have hedges : E' = edges ((t :: done).map m₀.face) := by
        ext r
        rw [hE', List.map_cons, mem_edges_cons, or_comm]
      obtain ⟨μ'', h''⟩ := ih h' hedges
      refine ⟨μ'', ?_⟩
      rw [List.reverse_cons, List.append_assoc, List.foldl_cons]
      exact h''

end Partway

/-- At first no triangle is divided and no edge has a midpoint. -/
theorem Intact.partway (h : Intact m) :
    Partway m (fun _ => 0) ∅ [] m.triangles m.triangles m := by
  refine ⟨h.joined, List.Perm.refl _, fun t ht => ht, fun t ht => ⟨ht, rfl⟩,
    fun t ht hnot => absurd ht hnot, List.Perm.refl _, ⟨?_, ?_⟩, ?_, fun v hv => hv, rfl, ?_, ?_⟩
  · exact fun s hs => absurd hs (Finset.notMem_empty s)
  · exact fun s hs => absurd hs (Finset.notMem_empty s)
  · exact fun s hs => absurd hs (Finset.notMem_empty s)
  · exact fun t ht => absurd ht List.not_mem_nil
  · intro t ht
    obtain ⟨h0, h1, h2⟩ := h.blank t ht
    exact ⟨h0, h1, h2⟩

theorem Intact.quartered (h : Intact m) : ∃ μ, Partway m μ (edges m.faces)
    (m.triangles.reverse ++ []) [] [] (m.meshSplitAllFour id A) :=
  h.partway.splitFours (A := A) h.joined h.closed rfl

theorem Intact.within (h : Intact m) {f : Face Nat} (hf : f ∈ m.faces) :
    f.Within {v | v ∈ m.vertices} {s | s ∈ edges m.faces} := by
  obtain ⟨t, ht, rfl⟩ := mem_faces.1 hf
  exact ⟨h.joined.corners_nodup t ht, h.joined.corners_mem t ht,
    fun p hp => mem_edges.2 ⟨_, hf, p, hp, rfl⟩⟩

/-- `mesh_split_all_four`. -/
theorem Intact.splitAllFour (h : Intact m) :
    Intact (m.meshSplitAllFour id A) ∧
      (m.meshSplitAllFour id A).vertices.length = m.vertices.length + m.edgeCount ∧
      (m.meshSplitAllFour id A).triangles.length = 4 * m.triangles.length := by
  obtain ⟨μ, hend⟩ := h.quartered (A := A)
  have hperm : m.triangles.Perm (m.triangles.reverse ++ []) := hend.perm.trans (by simp)
  have hfaces : (m.meshSplitAllFour id A).faces.Perm (m.faces.flatMap (Face.quarters μ)) := by
    have hfaces := hend.faces
    rw [List.map_nil, List.append_nil] at hfaces
    exact hfaces.trans ((hperm.symm.map m.face).flatMap_right _)
  have hV : (m.meshSplitAllFour id A).vertices.length = m.vertices.length + m.edgeCount :=
    hend.length
  have hF : (m.meshSplitAllFour id A).triangles.length = 4 * m.triangles.length := by
    rw [← length_faces, hfaces.length_eq, length_quarters, length_faces]
  refine ⟨⟨hend.joined, ?_, ?_, ?_⟩, hV, hF⟩
  · exact (h.closed.quarters hend.midpoints fun _ hf => h.within hf).perm hfaces.symm
  · exact fun t ht => (hend.other t ht List.not_mem_nil).2
  · have hcount := h.count
    have hedges := h.closed.card_edges
    rw [length_faces] at hedges
    rw [hV, hF, edgeCount]
    omega

/-! ## Runs -/

/-- `mesh_split_random_three`. -/
theorem Intact.splitRandomThree (h : Intact m) (hpos : 0 < m.triangles.length) (random : Nat) :
    Intact (m.meshSplitRandomThree id A random) ∧
      (m.meshSplitRandomThree id A random).vertices.length = m.vertices.length + 1 ∧
      (m.meshSplitRandomThree id A random).triangles.length = m.triangles.length + 2 := by
  have hlt : random % m.triangles.length < m.triangles.length := Nat.mod_lt _ hpos
  rw [meshSplitRandomThree, List.getElem?_eq_getElem hlt]
  obtain ⟨h1, hV, hF, -⟩ := h.splitThree (A := A) (List.getElem_mem hlt)
  exact ⟨h1, hV, hF⟩

end Mesh

end PureDataPacket
