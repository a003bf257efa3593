/-
# `PureDataPacket.Mesh.Subdivision` — triangles that are divided into three

An intact mesh is a closed surface with the Euler number of a sphere, and its
triangles hold no median vertices.  Both ways to divide a triangle remove it
and add the faces that take its place.  Divided into three, one triangle at a
time is replaced, and the mesh is intact after each.

| | |
| :-- | :-- |
| `Blank` | the triangle holds no median vertices |
| `Intact` | what a mesh is between two messages |
| `Grown` | `m'` is `m` with the faces `fs` |
| `Intact.sphere` | an intact mesh is a sphere |
| `Intact.splitThree` | `mesh_split_three` keeps a mesh intact |
| `Intact.splitThrees` | the loop of `mesh_split_all_three`, over any triangles of the mesh |
-/
import PureDataPacket.Mesh.Links

namespace PureDataPacket

namespace Mesh

/-- The triangle holds no median vertices. -/
def Blank (x : Triangle) : Prop := x.m0 = none ∧ x.m1 = none ∧ x.m2 = none

/-- What a mesh is between two messages. -/
structure Intact (m : Mesh) : Prop where
  joined : Joined m
  closed : Closed m.faces
  blank : ∀ t ∈ m.triangles, Blank (m.tri t)
  count : 2 * m.vertices.length = m.triangles.length + 4

variable {m m' : Mesh} {A : MeshAlloc}

theorem length_faces (m : Mesh) : m.faces.length = m.triangles.length := List.length_map ..

theorem mem_faces {f : Face Nat} : f ∈ m.faces ↔ ∃ t ∈ m.triangles, m.face t = f := List.mem_map

theorem eq_of_side (hc : Closed m.faces) {s t : Nat} (hs : s ∈ m.triangles)
    (ht : t ∈ m.triangles) {e : Nat × Nat} (hes : e ∈ (m.face s).sides)
    (het : e ∈ (m.face t).sides) : s = t := by
  by_contra hne
  have hsymm : Std.Symm fun s t => (m.face s).Apart (m.face t) := ⟨fun _ _ h => h.symm⟩
  have happ : m.triangles.Pairwise fun s t => (m.face s).Apart (m.face t) :=
    List.pairwise_map.1 hc.apart
  exact (happ.forall hs ht hne).disjoint e hes het

theorem Intact.sphere (h : Intact m) : Sphere m where
  edge := fun t ht e het s hs hes => eq_of_side h.closed hs ht hes het
  reverse := by
    intro t ht e het
    obtain ⟨g, hg, heg⟩ := h.closed.swap _ (mem_faces.2 ⟨t, ht, rfl⟩) e het
    obtain ⟨s, hs, rfl⟩ := mem_faces.1 hg
    refine ⟨s, ⟨hs, heg, ?_⟩, ?_⟩
    · rintro rfl
      exact Face.swap_notMem_sides (h.joined.corners_nodup s hs) het heg
    · rintro s' ⟨hs', heg', -⟩
      exact eq_of_side h.closed hs' hs heg' heg
  triangles := ⟨h.joined.triangles_nodup, h.joined.corners_nodup⟩
  vertices := ⟨h.joined.vertices_nodup, h.joined.corners_mem⟩
  trilist := fun v hv => ⟨h.joined.trilist_nodup v hv, h.joined.mem_trilist v hv⟩
  euler := by
    have hedges := h.closed.card_edges
    have hcount := h.count
    rw [length_faces] at hedges
    unfold edgeCount
    omega

/-! ## Adding faces -/

/-- Add a triangle for every face. -/
def addFaces (word : Nat → Nat) (A : MeshAlloc) (m : Mesh) (fs : List (Face Nat)) : Mesh :=
  fs.foldl (fun m f => m.meshTriangleAdd word A f.a f.b f.c) m

theorem addFaces_cons (word : Nat → Nat) (A : MeshAlloc) (m : Mesh) (f : Face Nat)
    (fs : List (Face Nat)) :
    m.addFaces word A (f :: fs) = (m.meshTriangleAdd word A f.a f.b f.c).addFaces word A fs := by
  rw [addFaces, addFaces, List.foldl_cons]

theorem meshNewTetra_eq (A : MeshAlloc) (word : Nat → Nat) :
    let m1 := (meshNew.meshVertexAdd A).2
    let m2 := (m1.meshVertexAdd A).2
    let m3 := (m2.meshVertexAdd A).2
    meshNewTetra word A = addFaces word A (m3.meshVertexAdd A).2
      [⟨A.vertex meshNew, A.vertex m1, A.vertex m2⟩, ⟨A.vertex m1, A.vertex meshNew, A.vertex m3⟩,
        ⟨A.vertex meshNew, A.vertex m2, A.vertex m3⟩, ⟨A.vertex m1, A.vertex m3, A.vertex m2⟩] := by
  simp only [meshNewTetra, addFaces, List.foldl_cons, List.foldl_nil, meshVertexAdd]

/-- `m'` is `m` with the faces `fs`. -/
structure Grown (m : Mesh) (fs : List (Face Nat)) (m' : Mesh) : Prop where
  joined : Joined m'
  vertices : m'.vertices = m.vertices
  faces : m'.faces.Perm (fs ++ m.faces)
  old : ∀ t ∈ m.triangles, t ∈ m'.triangles ∧ m'.tri t = m.tri t
  new : ∀ t ∈ m'.triangles, t ∉ m.triangles → m'.face t ∈ fs ∧ Blank (m'.tri t)

theorem Grown.face {fs : List (Face Nat)} (h : Grown m fs m') {t : Nat} (ht : t ∈ m.triangles) :
    m'.face t = m.face t := by
  simp only [Mesh.face, (h.old t ht).2]

theorem Grown.length {fs : List (Face Nat)} (h : Grown m fs m') :
    m'.triangles.length = fs.length + m.triangles.length := by
  rw [← length_faces, h.faces.length_eq, List.length_append, length_faces]

theorem grown_addFaces (A : MeshAlloc) {fs : List (Face Nat)} :
    ∀ {m : Mesh}, Joined m →
      (∀ f ∈ fs, f.corners.Nodup ∧ ∀ v ∈ f.corners, v ∈ m.vertices) →
      Grown m fs (m.addFaces id A fs) := by
  induction fs with
  | nil =>
      intro m h _
      exact ⟨h, rfl, List.Perm.refl _, fun t ht => ⟨ht, rfl⟩, fun t ht hnt => absurd ht hnt⟩
  | cons f fs ih =>
      intro m h hfs
      have hf := hfs f List.mem_cons_self
      have h1 : Joined (m.meshTriangleAdd id A f.a f.b f.c) := h.triangleAdd hf.1 hf.2
      have hrest := ih h1 fun g hg => by
        rw [vertices_triangleAdd]
        exact hfs g (List.mem_cons_of_mem _ hg)
      rw [addFaces_cons]
      refine ⟨hrest.joined, ?_, ?_, ?_, ?_⟩
      · rw [hrest.vertices, vertices_triangleAdd]
      · refine hrest.faces.trans ?_
        rw [faces_triangleAdd]
        exact List.perm_middle
      · intro t ht
        have hold := hrest.old t (by rw [triangles_triangleAdd]; exact List.mem_cons_of_mem _ ht)
        exact ⟨hold.1, hold.2.trans (tri_triangleAdd ht)⟩
      · intro t ht hnt
        by_cases htn : t = A.triangle m
        · -- the triangle that is added first
          have hmem : t ∈ (m.meshTriangleAdd id A f.a f.b f.c).triangles := by
            rw [triangles_triangleAdd, htn]
            exact List.mem_cons_self
          have htri : ((m.meshTriangleAdd id A f.a f.b f.c).addFaces id A fs).tri t =
              ⟨f.a, f.b, f.c, none, none, none⟩ := by
            refine (hrest.old t hmem).2.trans ?_
            rw [tri_triangleAdd_eq, htn, Function.update_self]
          refine ⟨?_, ?_⟩
          · rw [Mesh.face, htri]
            exact List.mem_cons_self
          · rw [htri]
            exact ⟨rfl, rfl, rfl⟩
        · have hnew := hrest.new t ht (by
            rw [triangles_triangleAdd, List.mem_cons, not_or]
            exact ⟨htn, hnt⟩)
          exact ⟨List.mem_cons_of_mem _ hnew.1, hnew.2⟩

/-! ## Three triangles for one -/

section Three

variable {t : Nat}

theorem meshSplitThree_eq (word : Nat → Nat) (A : MeshAlloc) (m : Mesh) (t : Nat) :
    m.meshSplitThree word A t = addFaces word A ((m.meshTriangleRemove word t).meshVertexAdd A).2
      ((m.face t).cone (A.vertex (m.meshTriangleRemove word t))) := by
  simp only [meshSplitThree, addFaces, Face.cone, face, List.foldl_cons, List.foldl_nil,
    meshVertexAdd]

/-- What is left of the mesh, with the new vertex, and the three triangles. -/
theorem grown_splitThree (h : Joined m) (ht : t ∈ m.triangles) :
    Grown ((m.meshTriangleRemove id t).meshVertexAdd A).2
      ((m.face t).cone (A.vertex (m.meshTriangleRemove id t))) (m.meshSplitThree id A t) := by
  have hn : A.vertex (m.meshTriangleRemove id t) ∉ m.vertices := by
    have hnot := A.vertex_notMem (m.meshTriangleRemove id t)
    rwa [vertices_triangleRemove] at hnot
  rw [meshSplitThree_eq]
  refine grown_addFaces A (h.triangleRemove ht).vertexAdd fun f hf => ?_
  obtain ⟨e, he, rfl⟩ := Face.mem_cone.1 hf
  have hmem := Face.mem_corners_of_side he
  have h1 := h.corners_mem t ht _ hmem.1
  have h2 := h.corners_mem t ht _ hmem.2
  have hne := Face.ne_of_side (h.corners_nodup t ht) he
  refine ⟨?_, ?_⟩
  · have hn1 : e.1 ≠ A.vertex (m.meshTriangleRemove id t) := fun heq => hn (heq ▸ h1)
    have hn2 : e.2 ≠ A.vertex (m.meshTriangleRemove id t) := fun heq => hn (heq ▸ h2)
    simp [Face.corners, hne, hn1, hn2]
  · intro v hv
    simp only [Face.corners, List.mem_cons, List.not_mem_nil, or_false] at hv
    simp only [meshVertexAdd, vertices_triangleRemove, List.mem_cons]
    rcases hv with rfl | rfl | rfl
    · exact Or.inr h1
    · exact Or.inr h2
    · exact Or.inl rfl

theorem Intact.splitThree (h : Intact m) (ht : t ∈ m.triangles) :
    Intact (m.meshSplitThree id A t) ∧
      (m.meshSplitThree id A t).vertices.length = m.vertices.length + 1 ∧
      (m.meshSplitThree id A t).triangles.length = m.triangles.length + 2 ∧
      ∀ s ∈ m.triangles, s ≠ t → s ∈ (m.meshSplitThree id A t).triangles := by
  have hg := grown_splitThree (A := A) h.joined ht
  have hleft : ∀ s, s ∈ ((m.meshTriangleRemove id t).meshVertexAdd A).2.triangles ↔
      s ≠ t ∧ s ∈ m.triangles := by
    intro s
    rw [show ((m.meshTriangleRemove id t).meshVertexAdd A).2.triangles = m.triangles.erase t from
      triangles_triangleRemove]
    exact h.joined.triangles_nodup.mem_erase_iff
  have hperm := faces_triangleRemove h.joined.triangles_nodup ht
  have hV : (m.meshSplitThree id A t).vertices.length = m.vertices.length + 1 := by
    rw [hg.vertices]
    simp [meshVertexAdd]
  have hF : (m.meshSplitThree id A t).triangles.length = m.triangles.length + 2 := by
    have hlen := hg.length
    have hrem : ((m.meshTriangleRemove id t).meshVertexAdd A).2.triangles.length + 1 =
        m.triangles.length := by
      rw [← length_faces m, hperm.length_eq, List.length_cons, length_faces]
      rfl
    simp only [Face.cone, List.length_cons, List.length_nil] at hlen
    omega
  refine ⟨⟨hg.joined, ?_, ?_, ?_⟩, hV, hF, fun s hs hne => (hg.old s ((hleft s).2 ⟨hne, hs⟩)).1⟩
  · refine ((h.closed.perm hperm).cone fun g hg hn => ?_).perm hg.faces.symm
    obtain ⟨s, hs, rfl⟩ := mem_faces.1 (hperm.mem_iff.2 hg)
    have hnot := A.vertex_notMem (m.meshTriangleRemove id t)
    rw [vertices_triangleRemove] at hnot
    exact hnot (h.joined.corners_mem s hs _ hn)
  · intro s hs
    by_cases hold : s ∈ ((m.meshTriangleRemove id t).meshVertexAdd A).2.triangles
    · obtain ⟨hne, hs⟩ := (hleft s).1 hold
      rw [(hg.old s hold).2]
      exact (tri_triangleRemove hne).symm ▸ h.blank s hs
    · exact (hg.new s hs hold).2
  · have := h.count
    omega

theorem Intact.splitThrees {l : List Nat} :
    ∀ {m : Mesh}, Intact m → l.Nodup → (∀ t ∈ l, t ∈ m.triangles) →
      Intact (l.foldl (meshSplitThree id A) m) ∧
        (l.foldl (meshSplitThree id A) m).vertices.length = m.vertices.length + l.length ∧
        (l.foldl (meshSplitThree id A) m).triangles.length = m.triangles.length + 2 * l.length := by
  induction l with
  | nil =>
      intro m h _ _
      exact ⟨h, rfl, rfl⟩
  | cons t l ih =>
      intro m h hl hmem
      obtain ⟨htl, hl⟩ := List.nodup_cons.1 hl
      obtain ⟨h1, hV1, hF1, hleft⟩ := h.splitThree (A := A) (hmem t List.mem_cons_self)
      obtain ⟨h2, hV2, hF2⟩ := ih h1 hl fun s hs =>
        hleft s (hmem s (List.mem_cons_of_mem _ hs)) fun heq => htl (heq ▸ hs)
      refine ⟨h2, ?_, ?_⟩
      · rw [List.foldl_cons, hV2, hV1, List.length_cons]
        omega
      · rw [List.foldl_cons, hF2, hF1, List.length_cons]
        omega

/-- `mesh_split_all_three`. -/
theorem Intact.splitAllThree (h : Intact m) :
    Intact (m.meshSplitAllThree id A) ∧
      (m.meshSplitAllThree id A).vertices.length = m.vertices.length + m.triangles.length ∧
      (m.meshSplitAllThree id A).triangles.length =
        m.triangles.length + 2 * m.triangles.length :=
  h.splitThrees h.joined.triangles_nodup fun _ ht => ht

end Three

end Mesh

end PureDataPacket
