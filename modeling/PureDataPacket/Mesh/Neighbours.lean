/-
# `PureDataPacket.Mesh.Neighbours` — the vertices that a vertex is linked to

A new triangle links its corners, and a triangle that is removed leaves the links as they are.
Divided into three, the corners of the old triangle are corners of the new ones, two by two.
Divided into four, they are not: every triangle of `mesh_split_all_four` has at most one vertex of
the mesh before, and the links between these stay for good.

| | |
| :-- | :-- |
| `Shares` | two vertices are corners of one triangle |
| `Linked` | what the links should be |
| `Exact` | the links are what the triangles say |
| `split_keep` | what each division keeps |
| `Stale` | two vertices are linked that share no triangle |
| `linked_whole_iff` | links are right until the triangles are divided into four |
-/
import PureDataPacket.Mesh.Runs

namespace PureDataPacket

namespace Mesh

/-- Two vertices are corners of one triangle. -/
def Shares (m : Mesh) (u v : Nat) : Prop := ∃ f ∈ m.faces, u ∈ f.corners ∧ v ∈ f.corners

/-- The vertices that a vertex is linked to are those that it shares a triangle with, each is there
once, and so is the vertex in its list. -/
structure Linked (m : Mesh) : Prop where
  nodup : ∀ u ∈ m.vertices, (m.vtx u).vertlist.Nodup
  mem : ∀ u ∈ m.vertices, ∀ v, v ∈ (m.vtx u).vertlist ↔ v ≠ u ∧ m.Shares u v
  symm : ∀ u ∈ m.vertices, ∀ v ∈ m.vertices,
    v ∈ (m.vtx u).vertlist → u ∈ (m.vtx v).vertlist

variable {m m' m'' : Mesh} {A : MeshAlloc} {u v w t : Nat} {fs : List (Face Nat)}

theorem Shares.symm (h : m.Shares u v) : m.Shares v u :=
  h.imp fun _ hf => ⟨hf.1, hf.2.2, hf.2.1⟩

/-! ## Lists of vertices -/

theorem mem_vertlist_vertexAddNeighbour (m : Mesh) (w n u v : Nat) :
    v ∈ ((m.vertexAddNeighbour id w n).vtx u).vertlist ↔
      v ∈ (m.vtx u).vertlist ∨ u = w ∧ v = n := by
  by_cases h : u = w
  · subst h
    simp only [vertexAddNeighbour, modifyVertex, Function.update_self, true_and,
      listAddPointerToSet_id]
    split
    · next hn => exact ⟨Or.inl, fun hv => hv.elim id fun he => he ▸ hn⟩
    · rw [List.mem_cons, or_comm]
  · simp only [vertexAddNeighbour, modifyVertex, Function.update_of_ne h, h, false_and, or_false]

theorem nodup_vertlist_vertexAddNeighbour (h : ∀ u, (m.vtx u).vertlist.Nodup) (w n : Nat) :
    ∀ u, ((m.vertexAddNeighbour id w n).vtx u).vertlist.Nodup := by
  intro u
  by_cases heq : u = w
  · subst heq
    simp only [vertexAddNeighbour, modifyVertex, Function.update_self, listAddPointerToSet_id]
    split
    · exact h u
    · next hn => exact List.nodup_cons.2 ⟨hn, h u⟩
  · simp only [vertexAddNeighbour, modifyVertex, Function.update_of_ne heq]
    exact h u

theorem vertlist_vertexAddTriangle (m : Mesh) (w t u : Nat) :
    ((m.vertexAddTriangle w t).vtx u).vertlist = (m.vtx u).vertlist := by
  by_cases h : u = w
  · subst h
    simp [vertexAddTriangle, modifyVertex]
  · simp [vertexAddTriangle, modifyVertex, h]

theorem vertlist_vertexRemoveTriangle (m : Mesh) (w t u : Nat) :
    ((m.vertexRemoveTriangle id w t).vtx u).vertlist = (m.vtx u).vertlist := by
  by_cases h : u = w
  · subst h
    simp [vertexRemoveTriangle, modifyVertex]
  · simp [vertexRemoveTriangle, modifyVertex, h]

theorem mem_vertlist_triangleAdd {f : Face Nat} (hf : f.corners.Nodup) (u v : Nat) :
    v ∈ ((m.meshTriangleAdd id A f.a f.b f.c).vtx u).vertlist ↔
      v ∈ (m.vtx u).vertlist ∨ v ≠ u ∧ u ∈ f.corners ∧ v ∈ f.corners := by
  simp only [Face.corners, List.nodup_cons, List.mem_cons, List.not_mem_nil, or_false,
    not_or] at hf ⊢
  simp only [vtx_triangleAdd, triangleNew, mem_vertlist_vertexAddNeighbour,
    vertlist_vertexAddTriangle]
  grind

theorem nodup_vertlist_triangleAdd (h : ∀ u, (m.vtx u).vertlist.Nodup) (v0 v1 v2 : Nat) :
    ∀ u, ((m.meshTriangleAdd id A v0 v1 v2).vtx u).vertlist.Nodup := by
  rw [vtx_triangleAdd, triangleNew]
  iterate 6 refine nodup_vertlist_vertexAddNeighbour ?_ _ _
  intro u
  simp only [vertlist_vertexAddTriangle]
  exact h u

theorem vertlist_triangleRemove (m : Mesh) (t u : Nat) :
    ((m.meshTriangleRemove id t).vtx u).vertlist = (m.vtx u).vertlist := by
  simp only [meshTriangleRemove, triangleFree, vertlist_vertexRemoveTriangle]

theorem vertlist_vertexAdd (A : MeshAlloc) (m : Mesh) (u : Nat) :
    ((m.meshVertexAdd A).2.vtx u).vertlist =
      if u = A.vertex m then [] else (m.vtx u).vertlist := by
  by_cases h : u = A.vertex m
  · simp [meshVertexAdd, h]
  · simp [meshVertexAdd, h]

theorem faces_addFaces (A : MeshAlloc) (m : Mesh) (fs : List (Face Nat)) :
    (m.addFaces id A fs).faces.Perm (fs ++ m.faces) := by
  induction fs generalizing m with
  | nil => exact List.Perm.refl _
  | cons f fs ih =>
      rw [addFaces_cons]
      refine (ih _).trans ?_
      rw [faces_triangleAdd]
      exact List.perm_middle

theorem nodup_of_joined_addFaces (h : Joined (m.addFaces id A fs)) : ∀ f ∈ fs, f.corners.Nodup := by
  intro f hf
  obtain ⟨t, ht, rfl⟩ :=
    mem_faces.1 ((faces_addFaces A m fs).mem_iff.2 (List.mem_append_left _ hf))
  exact h.corners_nodup t ht

theorem mem_vertlist_addFaces (hfs : ∀ f ∈ fs, f.corners.Nodup) (u v : Nat) :
    v ∈ ((m.addFaces id A fs).vtx u).vertlist ↔
      v ∈ (m.vtx u).vertlist ∨ v ≠ u ∧ ∃ f ∈ fs, u ∈ f.corners ∧ v ∈ f.corners := by
  induction fs generalizing m with
  | nil => simp [addFaces]
  | cons f fs ih =>
      rw [addFaces_cons, ih fun g hg => hfs g (List.mem_cons_of_mem _ hg),
        mem_vertlist_triangleAdd (hfs f List.mem_cons_self), List.exists_mem_cons_iff, or_assoc,
        ← and_or_left]

theorem nodup_vertlist_addFaces (h : ∀ u, (m.vtx u).vertlist.Nodup) (fs : List (Face Nat)) :
    ∀ u, ((m.addFaces id A fs).vtx u).vertlist.Nodup := by
  induction fs generalizing m with
  | nil => exact h
  | cons f fs ih =>
      rw [addFaces_cons]
      exact ih (nodup_vertlist_triangleAdd h _ _ _)

theorem nodup_vertlist_vertexAdd (h : ∀ u, (m.vtx u).vertlist.Nodup) :
    ∀ u, ((m.meshVertexAdd A).2.vtx u).vertlist.Nodup := by
  intro u
  rw [vertlist_vertexAdd]
  split
  · exact List.nodup_nil
  · exact h u

/-! ## Three triangles for one -/

/-- The links are what the triangles say. -/
def Exact (m : Mesh) : Prop :=
  ∀ u ∈ m.vertices, ∀ v, v ∈ (m.vtx u).vertlist ↔ v ≠ u ∧ m.Shares u v

theorem Exact.linked (h : Exact m) (hnodup : ∀ u, (m.vtx u).vertlist.Nodup) : Linked m where
  nodup u _ := hnodup u
  mem := h
  symm u hu v hv hmem := by
    obtain ⟨hne, hshares⟩ := (h u hu v).1 hmem
    exact (h v hv u).2 ⟨hne.symm, hshares.symm⟩

/-- Two corners of the old triangle are corners of a new one. -/
theorem exists_cone_iff {f : Face Nat} {n : Nat} (hu : u ≠ n) (hv : v ≠ n) (hne : v ≠ u) :
    (∃ g ∈ f.cone n, u ∈ g.corners ∧ v ∈ g.corners) ↔ u ∈ f.corners ∧ v ∈ f.corners := by
  constructor
  · rintro ⟨g, hg, hug, hvg⟩
    obtain ⟨e, he, rfl⟩ := Face.mem_cone.1 hg
    have hmem := Face.mem_corners_of_side he
    have hcorner : ∀ x, x ≠ n → x ∈ Face.corners ⟨e.1, e.2, n⟩ → x ∈ f.corners := by
      intro x hx hxg
      simp only [Face.corners, List.mem_cons, List.not_mem_nil, or_false] at hxg
      rcases hxg with rfl | rfl | rfl
      · exact hmem.1
      · exact hmem.2
      · exact absurd rfl hx
    exact ⟨hcorner u hu hug, hcorner v hv hvg⟩
  · rintro ⟨huf, hvf⟩
    have hmem : ∀ e : Nat × Nat, e.1 ∈ Face.corners ⟨e.1, e.2, n⟩ ∧
        e.2 ∈ Face.corners ⟨e.1, e.2, n⟩ := fun e => by simp [Face.corners]
    rcases Face.side_of_corners huf hvf hne.symm with he | he
    · exact ⟨_, Face.mem_cone.2 ⟨_, he, rfl⟩, hmem (u, v)⟩
    · exact ⟨_, Face.mem_cone.2 ⟨_, he, rfl⟩, (hmem (v, u)).symm⟩

section Three

theorem shares_iff_remove (h : Joined m) (ht : t ∈ m.triangles) :
    m.Shares u v ↔ (u ∈ (m.face t).corners ∧ v ∈ (m.face t).corners) ∨
      (m.meshTriangleRemove id t).Shares u v := by
  have hperm := faces_triangleRemove h.triangles_nodup ht
  exact (exists_congr fun f => and_congr_left' hperm.mem_iff).trans (List.exists_mem_cons_iff ..)

theorem shares_splitThree_iff (h : Joined m) (ht : t ∈ m.triangles) :
    (m.meshSplitThree id A t).Shares u v ↔
      (∃ f ∈ (m.face t).cone (A.vertex (m.meshTriangleRemove id t)),
          u ∈ f.corners ∧ v ∈ f.corners) ∨
        (m.meshTriangleRemove id t).Shares u v := by
  have hperm := (grown_splitThree (A := A) h ht).faces
  unfold Shares
  rw [← exists_or]
  refine exists_congr fun f => ?_
  rw [hperm.mem_iff, List.mem_append, or_and_right]
  rfl

/-- The new vertex is no corner of a triangle that is left. -/
theorem not_shares_remove (h : Joined m) (ht : t ∈ m.triangles) :
    ¬ (m.meshTriangleRemove id t).Shares u (A.vertex (m.meshTriangleRemove id t)) := by
  rintro ⟨f, hf, -, hmem⟩
  obtain ⟨s, hs, rfl⟩ := mem_faces.1 hf
  exact A.vertex_notMem _ ((h.triangleRemove ht).corners_mem s hs _ hmem)

theorem cone_nodup (h : Joined m) (ht : t ∈ m.triangles) :
    ∀ f ∈ (m.face t).cone (A.vertex (m.meshTriangleRemove id t)), f.corners.Nodup := by
  have hjoined := (grown_splitThree (A := A) h ht).joined
  rw [meshSplitThree_eq] at hjoined
  exact nodup_of_joined_addFaces hjoined

theorem mem_vertlist_splitThree (h : Joined m) (ht : t ∈ m.triangles) (u v : Nat) :
    v ∈ ((m.meshSplitThree id A t).vtx u).vertlist ↔
      (u ≠ A.vertex (m.meshTriangleRemove id t) ∧ v ∈ (m.vtx u).vertlist) ∨
        v ≠ u ∧ ∃ f ∈ (m.face t).cone (A.vertex (m.meshTriangleRemove id t)),
          u ∈ f.corners ∧ v ∈ f.corners := by
  rw [meshSplitThree_eq, mem_vertlist_addFaces (cone_nodup h ht), vertlist_vertexAdd]
  refine or_congr_left ?_
  split
  · next he => simp [he]
  · next hne => simp [hne, vertlist_triangleRemove]

theorem vertices_splitThree (h : Joined m) (ht : t ∈ m.triangles) :
    (m.meshSplitThree id A t).vertices = A.vertex (m.meshTriangleRemove id t) :: m.vertices := by
  rw [(grown_splitThree (A := A) h ht).vertices]
  simp [meshVertexAdd]

theorem Exact.splitThree (hm : Exact m) (h : Joined m) (ht : t ∈ m.triangles) :
    Exact (m.meshSplitThree id A t) := by
  intro u hu v
  rw [mem_vertlist_splitThree h ht, shares_splitThree_iff h ht]
  by_cases hun : u = A.vertex (m.meshTriangleRemove id t)
  · have hnone : ¬ (m.meshTriangleRemove id t).Shares u v := fun hs =>
      not_shares_remove h ht (hun ▸ hs.symm)
    simp [hun, hun ▸ hnone]
  · have hold : u ∈ m.vertices := by
      rw [vertices_splitThree h ht] at hu
      exact (List.mem_cons.1 hu).resolve_left hun
    by_cases hvn : v = A.vertex (m.meshTriangleRemove id t)
    · -- the new vertex was no neighbour before
      have hnone : ¬ (m.meshTriangleRemove id t).Shares u v := hvn ▸ not_shares_remove h ht
      have hnot : v ∉ (m.vtx u).vertlist := by
        rw [hm u hold, shares_iff_remove h ht]
        rintro ⟨-, ⟨-, hc⟩ | hs⟩
        · rw [hvn] at hc
          have hnew := A.vertex_notMem (m.meshTriangleRemove id t)
          rw [vertices_triangleRemove] at hnew
          exact hnew (h.corners_mem t ht _ hc)
        · exact hnone hs
      simp [hnot, hnone]
    · rw [hm u hold, shares_iff_remove h ht]
      by_cases hne : v = u
      · simp [hne]
      · simp only [ne_eq, hun, hne, not_false_eq_true, true_and]
        rw [exists_cone_iff hun hvn hne]
        tauto

/-- What each division keeps, those of all the triangles of a list keep. -/
theorem splitThrees_keep {P : Mesh → Prop} {l : List Nat}
    (hstep : ∀ {m t}, Intact m → t ∈ m.triangles → P m → P (m.meshSplitThree id A t)) :
    ∀ {m : Mesh}, Intact m → l.Nodup → (∀ t ∈ l, t ∈ m.triangles) → P m →
      P (l.foldl (meshSplitThree id A) m) := by
  induction l with
  | nil => exact fun _ _ _ hP => hP
  | cons t l ih =>
      intro m h hl hmem hP
      obtain ⟨htl, hl⟩ := List.nodup_cons.1 hl
      have ht := hmem t List.mem_cons_self
      obtain ⟨h₁, -, -, hleft⟩ := h.splitThree (A := A) ht
      exact ih h₁ hl (fun s hs => hleft s (hmem s (List.mem_cons_of_mem _ hs)) fun heq =>
        htl (heq ▸ hs)) (hstep h ht hP)

/-- A message that divides triangles into three keeps what each division keeps. -/
theorem split_keep {P : Mesh → Prop}
    (hstep : ∀ {m t}, Intact m → t ∈ m.triangles → P m → P (m.meshSplitThree id A t))
    (h : Intact m) {s : Split} (hs : s ≠ .allFour) (hP : P m) : P (m.split id A s) := by
  cases s with
  | allFour => exact absurd rfl hs
  | allThree => exact splitThrees_keep hstep h h.joined.triangles_nodup (fun _ ht => ht) hP
  | randomThree random =>
      show P (m.meshSplitRandomThree id A random)
      unfold meshSplitRandomThree
      split
      · next hget => exact hstep h (List.mem_of_getElem? hget) hP
      · exact hP

theorem nodup_vertlist_splitThree (h : ∀ u, (m.vtx u).vertlist.Nodup) :
    ∀ u, ((m.meshSplitThree id A t).vtx u).vertlist.Nodup := by
  rw [meshSplitThree_eq]
  refine nodup_vertlist_addFaces (nodup_vertlist_vertexAdd fun u => ?_) _
  rw [vertlist_triangleRemove]
  exact h u

end Three

/-! ## The tetrahedron -/

theorem exists_addFaces_tetra (A : MeshAlloc) : ∃ m fs, meshNewTetra id A = addFaces id A m fs ∧
    m.faces = [] ∧ ∀ u, (m.vtx u).vertlist = [] := by
  have hnone : ∀ {m : Mesh}, (∀ u, (m.vtx u).vertlist = []) →
      ∀ u, ((m.meshVertexAdd A).2.vtx u).vertlist = [] := by
    intro m h u
    rw [vertlist_vertexAdd, h u, ite_self]
  obtain ⟨m1, hm1⟩ : ∃ m1, m1 = (meshNew.meshVertexAdd A).2 := ⟨_, rfl⟩
  obtain ⟨m2, hm2⟩ : ∃ m2, m2 = (m1.meshVertexAdd A).2 := ⟨_, rfl⟩
  obtain ⟨m3, hm3⟩ : ∃ m3, m3 = (m2.meshVertexAdd A).2 := ⟨_, rfl⟩
  refine ⟨(m3.meshVertexAdd A).2,
    [⟨A.vertex meshNew, A.vertex m1, A.vertex m2⟩, ⟨A.vertex m1, A.vertex meshNew, A.vertex m3⟩,
      ⟨A.vertex meshNew, A.vertex m2, A.vertex m3⟩, ⟨A.vertex m1, A.vertex m3, A.vertex m2⟩],
    ?_, ?_, ?_⟩
  · simp only [hm3, hm2, hm1, meshNewTetra, addFaces, List.foldl_cons, List.foldl_nil,
      meshVertexAdd]
  · simp [hm3, hm2, hm1, meshVertexAdd, meshNew, faces]
  · rw [hm3, hm2, hm1]
    exact hnone (hnone (hnone (hnone fun _ => rfl)))

theorem exact_tetra (A : MeshAlloc) : Exact (meshNewTetra id A) ∧
    ∀ u, ((meshNewTetra id A).vtx u).vertlist.Nodup := by
  obtain ⟨m, fs, heq, hfaces, hnone⟩ := exists_addFaces_tetra A
  have hperm := faces_addFaces A m fs
  rw [hfaces, List.append_nil, ← heq] at hperm
  have hfs : ∀ f ∈ fs, f.corners.Nodup :=
    nodup_of_joined_addFaces (heq ▸ (intact_tetra A).1.joined)
  refine ⟨fun u _ v => ?_, ?_⟩
  · have hshares : (meshNewTetra id A).Shares u v ↔ ∃ f ∈ fs, u ∈ f.corners ∧ v ∈ f.corners :=
      exists_congr fun f => and_congr_left' hperm.mem_iff
    rw [hshares, heq, mem_vertlist_addFaces hfs, hnone u]
    simp
  · rw [heq]
    exact nodup_vertlist_addFaces (fun u => by rw [hnone u]; exact List.nodup_nil) fs

/-! ## Links that stay -/

/-- Vertices and links are only added. -/
structure Grows (m m' : Mesh) : Prop where
  vertices : ∀ u ∈ m.vertices, u ∈ m'.vertices
  vertlist : ∀ u ∈ m.vertices, ∀ v ∈ (m.vtx u).vertlist, v ∈ (m'.vtx u).vertlist

/-- Corners of one triangle are linked. -/
def Connected (m : Mesh) : Prop := ∀ u v, v ≠ u → m.Shares u v → v ∈ (m.vtx u).vertlist

theorem Exact.connected (hm : Exact m) (h : Joined m) : Connected m := by
  rintro u v hne ⟨f, hf, hu, hv⟩
  obtain ⟨t, ht, rfl⟩ := mem_faces.1 hf
  exact (hm u (h.corners_mem t ht u hu) v).2 ⟨hne, _, hf, hu, hv⟩

namespace Grows

theorem refl (m : Mesh) : Grows m m := ⟨fun _ hu => hu, fun _ _ _ hv => hv⟩

theorem trans (h : Grows m m') (h' : Grows m' m'') : Grows m m'' :=
  ⟨fun u hu => h'.vertices u (h.vertices u hu),
    fun u hu v hv => h'.vertlist u (h.vertices u hu) v (h.vertlist u hu v hv)⟩

theorem vertexAdd (A : MeshAlloc) (m : Mesh) : Grows m (m.meshVertexAdd A).2 where
  vertices u hu := List.mem_cons_of_mem _ hu
  vertlist u hu v hv := by
    have hne : u ≠ A.vertex m := fun he => A.vertex_notMem m (he ▸ hu)
    rw [vertlist_vertexAdd, if_neg hne]
    exact hv

theorem triangleRemove (m : Mesh) (t : Nat) : Grows m (m.meshTriangleRemove id t) where
  vertices u hu := by
    rw [vertices_triangleRemove]
    exact hu
  vertlist u _ v hv := by
    rw [vertlist_triangleRemove]
    exact hv

theorem triangleAdd (A : MeshAlloc) (m : Mesh) (v0 v1 v2 : Nat) :
    Grows m (m.meshTriangleAdd id A v0 v1 v2) where
  vertices u hu := by
    rw [vertices_triangleAdd]
    exact hu
  vertlist u _ v hv := by
    simp only [vtx_triangleAdd, triangleNew, mem_vertlist_vertexAddNeighbour,
      vertlist_vertexAddTriangle, hv, true_or]

theorem addFaces (A : MeshAlloc) (m : Mesh) (fs : List (Face Nat)) :
    Grows m (m.addFaces id A fs) := by
  induction fs generalizing m with
  | nil => exact refl m
  | cons f fs ih =>
      rw [addFaces_cons]
      exact (triangleAdd A m _ _ _).trans (ih _)

theorem getMedian (A : MeshAlloc) (m : Mesh) (t : Nat) (s : Option Nat) (v0 v1 : Nat) :
    Grows m (m.getMedian id A t s v0 v1).2 := by
  unfold Mesh.getMedian
  split
  · exact refl m
  · dsimp only
    split
    · exact ⟨(vertexAdd A m).vertices, (vertexAdd A m).vertlist⟩
    · exact vertexAdd A m

theorem splitFour (A : MeshAlloc) (m : Mesh) (t : Nat) : Grows m (m.meshSplitFour id A t) := by
  rw [meshSplitFour_eq]
  exact ((((getMedian A m t _ _ _).trans (getMedian A _ t _ _ _)).trans
    (getMedian A _ t _ _ _)).trans (triangleRemove _ t)).trans (addFaces A _ _)

theorem splitThree (A : MeshAlloc) (m : Mesh) (t : Nat) : Grows m (m.meshSplitThree id A t) := by
  rw [meshSplitThree_eq]
  exact ((triangleRemove m t).trans (vertexAdd A _)).trans (addFaces A _ _)

theorem foldl {step : Mesh → Nat → Mesh} (hstep : ∀ m t, Grows m (step m t)) (l : List Nat)
    (m : Mesh) : Grows m (l.foldl step m) := by
  induction l generalizing m with
  | nil => exact refl m
  | cons t l ih => exact (hstep m t).trans (ih _)

end Grows

namespace Connected

theorem vertexAdd (hm : Connected m) (h : Joined m) : Connected (m.meshVertexAdd A).2 := by
  rintro u v hne ⟨f, hf, hu, hv⟩
  have hold : f ∈ m.faces := hf
  obtain ⟨t, ht, rfl⟩ := mem_faces.1 hold
  exact (Grows.vertexAdd A m).vertlist u (h.corners_mem t ht u hu) v (hm u v hne ⟨_, hf, hu, hv⟩)

theorem triangleAddMedian (hm : Connected m) (s v0 v1 w : Nat) :
    Connected (m.triangleAddMedian s v0 v1 w) := by
  rintro u v hne ⟨f, hf, hu, hv⟩
  have hfaces : (m.triangleAddMedian s v0 v1 w).faces = m.faces :=
    List.map_congr_left fun t _ => face_triangleAddMedian m s v0 v1 w t
  exact hm u v hne ⟨f, hfaces ▸ hf, hu, hv⟩

theorem triangleRemove (hm : Connected m) (h : Joined m) (ht : t ∈ m.triangles) :
    Connected (m.meshTriangleRemove id t) := by
  intro u v hne hshares
  rw [vertlist_triangleRemove]
  exact hm u v hne ((shares_iff_remove h ht).2 (.inr hshares))

theorem addFaces (hm : Connected m) (hfs : ∀ f ∈ fs, f.corners.Nodup) :
    Connected (m.addFaces id A fs) := by
  rintro u v hne ⟨f, hf, hu, hv⟩
  rw [mem_vertlist_addFaces hfs]
  rcases List.mem_append.1 ((faces_addFaces A m fs).mem_iff.1 hf) with hf | hf
  · exact .inr ⟨hne, f, hf, hu, hv⟩
  · exact .inl (hm u v hne ⟨f, hf, hu, hv⟩)

theorem splitThree (hm : Connected m) (h : Joined m) (ht : t ∈ m.triangles) :
    Connected (m.meshSplitThree id A t) := by
  rw [meshSplitThree_eq]
  exact ((hm.triangleRemove h ht).vertexAdd (h.triangleRemove ht)).addFaces (cone_nodup h ht)

theorem getMedian (hm : Connected m) (h : Joined m) (t : Nat) (s : Option Nat) (v0 v1 : Nat) :
    Connected (m.getMedian id A t s v0 v1).2 ∧ Joined (m.getMedian id A t s v0 v1).2 ∧
      (m.getMedian id A t s v0 v1).2.triangles = m.triangles := by
  unfold Mesh.getMedian
  split
  · exact ⟨hm, h, rfl⟩
  · have hm' := hm.vertexAdd (A := A) h
    dsimp only
    split
    · exact ⟨hm'.triangleAddMedian _ _ _ _, h.vertexAdd.triangleAddMedian _ _ _ _, rfl⟩
    · exact ⟨hm', h.vertexAdd, rfl⟩

theorem splitFour (hm : Connected m) (h : Joined m) (ht : t ∈ m.triangles)
    (h' : Joined (m.meshSplitFour id A t)) : Connected (m.meshSplitFour id A t) := by
  rw [meshSplitFour_eq] at h' ⊢
  dsimp only at h' ⊢
  obtain ⟨hm₁, h₁, ht₁⟩ := hm.getMedian (A := A) h t (m.tri t).m0 (m.face t).a (m.face t).b
  obtain ⟨hm₂, h₂, ht₂⟩ := hm₁.getMedian (A := A) h₁ t (m.tri t).m1 (m.face t).b (m.face t).c
  obtain ⟨hm₃, h₃, ht₃⟩ := hm₂.getMedian (A := A) h₂ t (m.tri t).m2 (m.face t).c (m.face t).a
  refine (hm₃.triangleRemove h₃ ?_).addFaces (nodup_of_joined_addFaces h')
  rw [ht₃, ht₂, ht₁]
  exact ht

/-- The triangles of a list are divided, where the others have been. -/
theorem splitFours {m₀ : Mesh} (hj₀ : Joined m₀) (hc₀ : Closed m₀.faces) {todo : List Nat} :
    ∀ {m : Mesh} {μ E done}, Partway m₀ μ E done todo todo m → Connected m →
      Connected (todo.foldl (meshSplitFour id A) m) := by
  induction todo with
  | nil => exact fun _ hm => hm
  | cons t todo ih =>
      intro m μ E done h hm
      obtain ⟨μ', E', h', -⟩ := h.splitFour (A := A) hj₀ hc₀
      have ht := (h.todo_mem t List.mem_cons_self).1
      exact ih h' (hm.splitFour h.joined ht h'.joined)

theorem split (hm : Connected m) (h : Intact m) (s : Split) : Connected (m.split id A s) := by
  by_cases hs : s = .allFour
  · subst hs
    exact splitFours h.joined h.closed h.partway hm
  · exact split_keep (fun h ht hm => hm.splitThree h.joined ht) h hs hm

end Connected

/-! ## Triangles that are divided into four -/

/-- Two vertices are linked that share no triangle. -/
def Stale (m : Mesh) : Prop :=
  ∃ u ∈ m.vertices, ∃ v ∈ m.vertices, v ≠ u ∧ v ∈ (m.vtx u).vertlist ∧ ¬ m.Shares u v

theorem not_linked_of_stale (h : Stale m) : ¬ Linked m := by
  obtain ⟨u, hu, v, -, -, hmem, hnot⟩ := h
  exact fun hlinked => hnot ((hlinked.mem u hu v).1 hmem).2

theorem not_shares_splitAllFour (h : Intact m) (hu : u ∈ m.vertices) (hv : v ∈ m.vertices)
    (hne : v ≠ u) : ¬ (m.meshSplitAllFour id A).Shares u v := by
  rintro ⟨f, hf, huf, hvf⟩
  obtain ⟨s, hs, rfl⟩ := mem_faces.1 hf
  obtain ⟨μ, hend⟩ := h.quartered (A := A)
  obtain ⟨⟨d, hd, hquarter⟩, -⟩ := hend.other s hs List.not_mem_nil
  have hd₀ : d ∈ m.triangles := hend.mem₀.2 (Or.inl hd)
  have hwithin := h.within (mem_faces.2 ⟨d, hd₀, rfl⟩)
  exact hne (Face.old_corner_unique hend.midpoints hwithin hquarter huf hvf hu hv).symm

/-- So the corners of a triangle are linked for no reason. -/
theorem stale_splitAllFour (h : Intact m) (hm : Connected m) (hpos : 0 < m.triangles.length) :
    Stale (m.meshSplitAllFour id A) := by
  obtain ⟨t, ht⟩ := List.exists_mem_of_length_pos hpos
  have hgrows : Grows m (m.meshSplitAllFour id A) := Grows.foldl (Grows.splitFour A) _ m
  have hside : ((m.face t).a, (m.face t).b) ∈ (m.face t).sides := List.mem_cons_self
  obtain ⟨ha, hb⟩ := Face.mem_corners_of_side hside
  have hne : (m.face t).b ≠ (m.face t).a :=
    (Face.ne_of_side (h.joined.corners_nodup t ht) hside).symm
  have hav := h.joined.corners_mem t ht _ ha
  have hbv := h.joined.corners_mem t ht _ hb
  exact ⟨_, hgrows.vertices _ hav, _, hgrows.vertices _ hbv, hne,
    hgrows.vertlist _ hav _ (hm _ _ hne ⟨_, mem_faces.2 ⟨t, ht, rfl⟩, ha, hb⟩),
    not_shares_splitAllFour h hav hbv hne⟩

theorem Stale.splitThree (hm : Stale m) (h : Joined m) (ht : t ∈ m.triangles) :
    Stale (m.meshSplitThree id A t) := by
  obtain ⟨u, hu, v, hv, hne, hmem, hnot⟩ := hm
  have hgrows := Grows.splitThree A m t
  have hnew : ∀ x ∈ m.vertices, x ≠ A.vertex (m.meshTriangleRemove id t) := by
    intro x hx he
    have hfresh := A.vertex_notMem (m.meshTriangleRemove id t)
    rw [vertices_triangleRemove, ← he] at hfresh
    exact hfresh hx
  refine ⟨u, hgrows.vertices u hu, v, hgrows.vertices v hv, hne, hgrows.vertlist u hu v hmem, ?_⟩
  rw [shares_splitThree_iff h ht, exists_cone_iff (hnew u hu) (hnew v hv) hne]
  exact fun hs => hnot ((shares_iff_remove h ht).2 hs)

/-! ## Runs -/

theorem Exact.run {messages : List Split} :
    ∀ {m : Mesh}, Intact m → 0 < m.triangles.length → Split.allFour ∉ messages →
      (Exact m ∧ ∀ u, (m.vtx u).vertlist.Nodup) →
      Exact (messages.foldl (Mesh.split id A) m) ∧
        ∀ u, ((messages.foldl (Mesh.split id A) m).vtx u).vertlist.Nodup := by
  induction messages with
  | nil => exact fun _ _ _ hm => hm
  | cons s messages ih =>
      intro m h hpos hs hm
      have hne : s ≠ .allFour := fun he => hs (he ▸ List.mem_cons_self)
      obtain ⟨h', hpos'⟩ := h.split (A := A) hpos s
      have hm' := split_keep (A := A) (P := fun m => Exact m ∧ ∀ u, (m.vtx u).vertlist.Nodup)
        (fun h ht hm => ⟨hm.1.splitThree h.joined ht, nodup_vertlist_splitThree hm.2⟩) h hne hm
      exact ih h' hpos' (fun hmem => hs (List.mem_cons_of_mem _ hmem)) hm'

theorem Stale.run {messages : List Split} :
    ∀ {m : Mesh}, Intact m → 0 < m.triangles.length → Connected m →
      (Stale m ∨ Split.allFour ∈ messages) → Stale (messages.foldl (Mesh.split id A) m) := by
  induction messages with
  | nil => exact fun _ _ _ hm => hm.resolve_right List.not_mem_nil
  | cons s messages ih =>
      intro m h hpos hc hm
      obtain ⟨h', hpos'⟩ := h.split (A := A) hpos s
      refine ih h' hpos' (hc.split h s) ?_
      by_cases hs : s = .allFour
      · exact .inl (hs ▸ stale_splitAllFour h hc hpos)
      · refine hm.imp (fun hm => ?_) fun hmem => (List.mem_cons.1 hmem).resolve_left (Ne.symm hs)
        exact split_keep (fun h ht hm => hm.splitThree h.joined ht) h hs hm

/-- Vertices are linked as they should be until the triangles are divided into four. -/
theorem linked_whole_iff (A : MeshAlloc) (messages : List Split) :
    Linked (run id A messages) ↔ Split.allFour ∉ messages := by
  obtain ⟨h, hF⟩ := intact_tetra A
  obtain ⟨hexact, hnodup⟩ := exact_tetra A
  constructor
  · intro hlinked hmem
    exact not_linked_of_stale
      (Stale.run h (by omega) (hexact.connected h.joined) (.inr hmem)) hlinked
  · intro hnot
    obtain ⟨hexact', hnodup'⟩ := Exact.run h (by omega) hnot ⟨hexact, hnodup⟩
    exact hexact'.linked hnodup'

end Mesh

end PureDataPacket
