/-
# `PureDataPacket.Mesh.Links` — what is added to a mesh and removed

`Joined` says that the triangles and the vertices of a mesh know each other.
Adding a vertex, adding and removing a triangle keep it, and they have a plain
meaning for the list of faces.

| | |
| :-- | :-- |
| `Joined` | vertices know their triangles |
| `listContainsPointer_eq` | where no other address looks the same, addresses are compared |
| `triangleNew_spec` | what a new triangle leaves alone, and its own memory |
| `triangleFree_spec` | what a triangle that is freed leaves alone, and its own memory |
-/
import PureDataPacket.Mesh.Mesh
import Mathlib.Data.List.Perm.Basic

namespace PureDataPacket

namespace Mesh

/-- Triangles have three vertices of the mesh, and the vertices know which triangles these
are. -/
structure Joined (m : Mesh) : Prop where
  triangles_nodup : m.triangles.Nodup
  vertices_nodup : m.vertices.Nodup
  corners_nodup : ∀ t ∈ m.triangles, (m.face t).corners.Nodup
  corners_mem : ∀ t ∈ m.triangles, ∀ v ∈ (m.face t).corners, v ∈ m.vertices
  trilist_nodup : ∀ v ∈ m.vertices, (m.vtx v).trilist.Nodup
  mem_trilist : ∀ v ∈ m.vertices, ∀ t,
    t ∈ (m.vtx v).trilist ↔ t ∈ m.triangles ∧ v ∈ (m.face t).corners

variable {m : Mesh} {A : MeshAlloc}

/-! ## Lists of pointers -/

section Pointers

variable {word : Nat → Nat} {l : List Nat} {a : Nat}

theorem listContainsPointer_eq (h : ∀ b ∈ l, word b = word a → b = a) :
    listContainsPointer word l a = l.contains a := by
  rw [Bool.eq_iff_iff, listContainsPointer, List.any_eq_true, List.contains_iff_mem]
  constructor
  · rintro ⟨b, hb, heq⟩
    exact h b hb (by simpa using heq) ▸ hb
  · exact fun ha => ⟨a, ha, by simp⟩

theorem listRemovePointer_eq (h : ∀ b ∈ l, word b = word a → b = a) :
    listRemovePointer word l a = l.erase a := by
  rw [listRemovePointer, List.erase_eq_eraseP]
  induction l with
  | nil => rfl
  | cons b l ih =>
      have hb : (word b == word a) = (a == b) := by
        rw [Bool.eq_iff_iff, beq_iff_eq, beq_iff_eq]
        exact ⟨fun heq => (h b List.mem_cons_self heq).symm, fun heq => heq ▸ rfl⟩
      rw [List.eraseP_cons, List.eraseP_cons, hb,
        ih fun c hc => h c (List.mem_cons_of_mem _ hc)]

theorem listAddPointerToSet_eq (h : ∀ b ∈ l, word b = word a → b = a) :
    listAddPointerToSet word l a = if a ∈ l then l else a :: l := by
  rw [listAddPointerToSet, listContainsPointer_eq h]
  simp

@[simp] theorem listContainsPointer_id : listContainsPointer id l a = l.contains a :=
  listContainsPointer_eq fun _ _ h => h

@[simp] theorem listRemovePointer_id : listRemovePointer id l a = l.erase a :=
  listRemovePointer_eq fun _ _ h => h

@[simp] theorem listAddPointerToSet_id :
    listAddPointerToSet id l a = if a ∈ l then l else a :: l :=
  listAddPointerToSet_eq fun _ _ h => h

end Pointers

/-! ## Changing a vertex -/

@[simp] theorem vertices_modifyVertex (m : Mesh) (v : Nat) (g : Vertex → Vertex) :
    (m.modifyVertex v g).vertices = m.vertices := rfl

@[simp] theorem triangles_modifyVertex (m : Mesh) (v : Nat) (g : Vertex → Vertex) :
    (m.modifyVertex v g).triangles = m.triangles := rfl

@[simp] theorem tri_modifyVertex (m : Mesh) (v : Nat) (g : Vertex → Vertex) :
    (m.modifyVertex v g).tri = m.tri := rfl

theorem triangleNew_spec (m : Mesh) (t v0 v1 v2 : Nat) :
    (m.triangleNew id t v0 v1 v2).vertices = m.vertices ∧
      (m.triangleNew id t v0 v1 v2).triangles = m.triangles ∧
      (m.triangleNew id t v0 v1 v2).tri =
        Function.update m.tri t ⟨v0, v1, v2, none, none, none⟩ := by
  simp [triangleNew, vertexAddTriangle, vertexAddNeighbour]

theorem triangleFree_spec (m : Mesh) (t : Nat) :
    (m.triangleFree id t).vertices = m.vertices ∧ (m.triangleFree id t).triangles = m.triangles ∧
      (m.triangleFree id t).tri = Function.update m.tri t ⟨0, 0, 0, none, none, none⟩ := by
  simp [triangleFree, vertexRemoveTriangle]

/-! ## Lists of triangles -/

theorem trilist_vertexAddTriangle (m : Mesh) (v t w : Nat) :
    ((m.vertexAddTriangle v t).vtx w).trilist =
      if w = v then t :: (m.vtx w).trilist else (m.vtx w).trilist := by
  by_cases h : w = v
  · subst h
    simp [vertexAddTriangle, modifyVertex]
  · simp [vertexAddTriangle, modifyVertex, h]

theorem trilist_vertexRemoveTriangle (m : Mesh) (v t w : Nat) :
    ((m.vertexRemoveTriangle id v t).vtx w).trilist =
      if w = v then (m.vtx w).trilist.erase t else (m.vtx w).trilist := by
  by_cases h : w = v
  · subst h
    simp [vertexRemoveTriangle, modifyVertex]
  · simp [vertexRemoveTriangle, modifyVertex, h]

theorem trilist_vertexAddNeighbour (m : Mesh) (v n w : Nat) :
    ((m.vertexAddNeighbour id v n).vtx w).trilist = (m.vtx w).trilist := by
  by_cases h : w = v
  · subst h
    simp [vertexAddNeighbour, modifyVertex]
  · simp [vertexAddNeighbour, modifyVertex, Function.update_of_ne h]

/-- A new triangle is put into the lists of its corners. -/
theorem trilist_triangleNew (m : Mesh) (t : Nat) {v0 v1 v2 : Nat}
    (h : (Face.corners ⟨v0, v1, v2⟩).Nodup) (w : Nat) :
    ((m.triangleNew id t v0 v1 v2).vtx w).trilist =
      if w ∈ Face.corners ⟨v0, v1, v2⟩ then t :: (m.vtx w).trilist else (m.vtx w).trilist := by
  simp only [Face.corners, List.nodup_cons, List.mem_cons, List.not_mem_nil, or_false,
    not_or] at h ⊢
  simp only [triangleNew, trilist_vertexAddNeighbour, trilist_vertexAddTriangle]
  grind

/-- A triangle is taken out of the lists of its corners. -/
theorem trilist_triangleFree (m : Mesh) (t : Nat) (h : (m.face t).corners.Nodup) (w : Nat) :
    ((m.triangleFree id t).vtx w).trilist =
      if w ∈ (m.face t).corners then (m.vtx w).trilist.erase t else (m.vtx w).trilist := by
  simp only [face, Face.corners, List.nodup_cons, List.mem_cons, List.not_mem_nil, or_false,
    not_or] at h ⊢
  simp only [triangleFree, trilist_vertexRemoveTriangle]
  grind

/-! ## Adding a vertex -/

theorem Joined.vertexAdd (h : Joined m) : Joined (m.meshVertexAdd A).2 where
  triangles_nodup := h.triangles_nodup
  vertices_nodup := List.nodup_cons.2 ⟨A.vertex_notMem m, h.vertices_nodup⟩
  corners_nodup := h.corners_nodup
  corners_mem := fun t ht v hv => List.mem_cons_of_mem _ (h.corners_mem t ht v hv)
  trilist_nodup := by
    intro v hv
    by_cases hvn : v = A.vertex m
    · simp [meshVertexAdd, hvn]
    · rw [show ((m.meshVertexAdd A).2.vtx v) = m.vtx v from Function.update_of_ne hvn ..]
      exact h.trilist_nodup v ((List.mem_cons.1 hv).resolve_left hvn)
  mem_trilist := by
    intro v hv t
    by_cases hvn : v = A.vertex m
    · subst hvn
      have hnone : ¬ (t ∈ m.triangles ∧ A.vertex m ∈ (m.face t).corners) := fun ht =>
        A.vertex_notMem m (h.corners_mem t ht.1 _ ht.2)
      have hempty : ((m.meshVertexAdd A).2.vtx (A.vertex m)).trilist = [] := by
        simp [meshVertexAdd]
      rw [hempty]
      exact ⟨fun ht => absurd ht List.not_mem_nil, fun ht => absurd ht hnone⟩
    · rw [show ((m.meshVertexAdd A).2.vtx v) = m.vtx v from Function.update_of_ne hvn ..]
      exact h.mem_trilist v ((List.mem_cons.1 hv).resolve_left hvn) t

/-! ## Adding a triangle -/

section Add

variable {v0 v1 v2 : Nat}

@[simp] theorem triangles_triangleAdd :
    (m.meshTriangleAdd id A v0 v1 v2).triangles = A.triangle m :: m.triangles := by
  rw [meshTriangleAdd, (triangleNew_spec m _ v0 v1 v2).2.1]

@[simp] theorem vertices_triangleAdd :
    (m.meshTriangleAdd id A v0 v1 v2).vertices = m.vertices := by
  rw [meshTriangleAdd, (triangleNew_spec m _ v0 v1 v2).1]

theorem tri_triangleAdd_eq : (m.meshTriangleAdd id A v0 v1 v2).tri =
    Function.update m.tri (A.triangle m) ⟨v0, v1, v2, none, none, none⟩ := by
  rw [meshTriangleAdd, (triangleNew_spec m _ v0 v1 v2).2.2]

theorem vtx_triangleAdd : (m.meshTriangleAdd id A v0 v1 v2).vtx =
    (m.triangleNew id (A.triangle m) v0 v1 v2).vtx := rfl

theorem tri_triangleAdd {t : Nat} (ht : t ∈ m.triangles) :
    (m.meshTriangleAdd id A v0 v1 v2).tri t = m.tri t := by
  have hne : t ≠ A.triangle m := fun h => A.triangle_notMem m (h ▸ ht)
  rw [tri_triangleAdd_eq, Function.update_of_ne hne]

theorem face_triangleAdd {t : Nat} (ht : t ∈ m.triangles) :
    (m.meshTriangleAdd id A v0 v1 v2).face t = m.face t := by
  simp only [face, tri_triangleAdd ht]

theorem face_triangleAdd_new :
    (m.meshTriangleAdd id A v0 v1 v2).face (A.triangle m) = ⟨v0, v1, v2⟩ := by
  simp only [face, tri_triangleAdd_eq, Function.update_self]

theorem faces_triangleAdd :
    (m.meshTriangleAdd id A v0 v1 v2).faces = ⟨v0, v1, v2⟩ :: m.faces := by
  simp only [faces, triangles_triangleAdd, List.map_cons, face_triangleAdd_new]
  exact congrArg _ (List.map_congr_left fun t ht => face_triangleAdd ht)

theorem Joined.triangleAdd (h : Joined m) (hc : (Face.corners ⟨v0, v1, v2⟩).Nodup)
    (hv : ∀ v ∈ Face.corners ⟨v0, v1, v2⟩, v ∈ m.vertices) :
    Joined (m.meshTriangleAdd id A v0 v1 v2) := by
  have hlist : ∀ w, ((m.meshTriangleAdd id A v0 v1 v2).vtx w).trilist =
      if w ∈ Face.corners ⟨v0, v1, v2⟩ then A.triangle m :: (m.vtx w).trilist
      else (m.vtx w).trilist := fun w => by
    rw [vtx_triangleAdd, trilist_triangleNew m _ hc]
  have hnew : ∀ v ∈ m.vertices, A.triangle m ∉ (m.vtx v).trilist := fun v hv ht =>
    A.triangle_notMem m ((h.mem_trilist v hv _).1 ht).1
  refine ⟨?_, ?_, ?_, ?_, ?_, ?_⟩
  · rw [triangles_triangleAdd]
    exact List.nodup_cons.2 ⟨A.triangle_notMem m, h.triangles_nodup⟩
  · rw [vertices_triangleAdd]
    exact h.vertices_nodup
  · intro t ht
    rw [triangles_triangleAdd] at ht
    rcases List.mem_cons.1 ht with rfl | ht
    · rw [face_triangleAdd_new]
      exact hc
    · rw [face_triangleAdd ht]
      exact h.corners_nodup t ht
  · intro t ht v hvt
    rw [triangles_triangleAdd] at ht
    rw [vertices_triangleAdd]
    rcases List.mem_cons.1 ht with rfl | ht
    · rw [face_triangleAdd_new] at hvt
      exact hv v hvt
    · rw [face_triangleAdd ht] at hvt
      exact h.corners_mem t ht v hvt
  · intro v hv
    rw [vertices_triangleAdd] at hv
    rw [hlist]
    split
    · exact List.nodup_cons.2 ⟨hnew v hv, h.trilist_nodup v hv⟩
    · exact h.trilist_nodup v hv
  · intro v hv t
    rw [vertices_triangleAdd] at hv
    rw [hlist, triangles_triangleAdd, List.mem_cons]
    by_cases ht : t = A.triangle m
    · subst ht
      rw [face_triangleAdd_new]
      split
      · rename_i hmem
        exact ⟨fun _ => ⟨Or.inl rfl, hmem⟩, fun _ => List.mem_cons_self⟩
      · rename_i hmem
        exact ⟨fun hl => absurd hl (hnew v hv), fun hr => absurd hr.2 hmem⟩
    · have hold : t ∈ (m.vtx v).trilist ↔
          (t = A.triangle m ∨ t ∈ m.triangles) ∧
            v ∈ ((m.meshTriangleAdd id A v0 v1 v2).face t).corners := by
        rw [h.mem_trilist v hv t]
        constructor
        · rintro ⟨htm, htc⟩
          exact ⟨Or.inr htm, by rwa [face_triangleAdd htm]⟩
        · rintro ⟨htm, htc⟩
          have htm := htm.resolve_left ht
          exact ⟨htm, by rwa [face_triangleAdd htm] at htc⟩
      rw [← hold]
      split
      · rw [List.mem_cons]
        exact ⟨fun hl => hl.resolve_left ht, Or.inr⟩
      · exact Iff.rfl

end Add

/-! ## Removing a triangle -/

section Remove

variable {t : Nat}

@[simp] theorem triangles_triangleRemove :
    (m.meshTriangleRemove id t).triangles = m.triangles.erase t :=
  (triangleFree_spec _ t).2.1.trans listRemovePointer_id

@[simp] theorem vertices_triangleRemove :
    (m.meshTriangleRemove id t).vertices = m.vertices :=
  (triangleFree_spec _ t).1

theorem tri_triangleRemove {s : Nat} (hs : s ≠ t) :
    (m.meshTriangleRemove id t).tri s = m.tri s := by
  rw [meshTriangleRemove, (triangleFree_spec _ t).2.2, Function.update_of_ne hs]

theorem face_triangleRemove {s : Nat} (hs : s ≠ t) :
    (m.meshTriangleRemove id t).face s = m.face s := by
  simp only [face, tri_triangleRemove hs]

theorem faces_triangleRemove (h : m.triangles.Nodup) (ht : t ∈ m.triangles) :
    m.faces.Perm (m.face t :: (m.meshTriangleRemove id t).faces) := by
  have hmap : (m.meshTriangleRemove id t).faces = (m.triangles.erase t).map m.face := by
    simp only [faces, triangles_triangleRemove]
    exact List.map_congr_left fun s hs => face_triangleRemove (h.mem_erase_iff.1 hs).1
  rw [hmap]
  exact (List.perm_cons_erase ht).map m.face

theorem Joined.triangleRemove (h : Joined m) (ht : t ∈ m.triangles) :
    Joined (m.meshTriangleRemove id t) := by
  have hlist : ∀ w, ((m.meshTriangleRemove id t).vtx w).trilist =
      if w ∈ (m.face t).corners then (m.vtx w).trilist.erase t else (m.vtx w).trilist :=
    trilist_triangleFree { m with triangles := listRemovePointer id m.triangles t } t
      (h.corners_nodup t ht)
  have hmem : ∀ {s}, s ∈ m.triangles.erase t ↔ s ≠ t ∧ s ∈ m.triangles :=
    h.triangles_nodup.mem_erase_iff
  refine ⟨?_, ?_, ?_, ?_, ?_, ?_⟩
  · rw [triangles_triangleRemove]
    exact h.triangles_nodup.erase t
  · rw [vertices_triangleRemove]
    exact h.vertices_nodup
  · intro s hs
    rw [triangles_triangleRemove] at hs
    obtain ⟨hne, hs⟩ := hmem.1 hs
    rw [face_triangleRemove hne]
    exact h.corners_nodup s hs
  · intro s hs
    rw [triangles_triangleRemove] at hs
    rw [vertices_triangleRemove]
    obtain ⟨hne, hs⟩ := hmem.1 hs
    rw [face_triangleRemove hne]
    exact h.corners_mem s hs
  · intro v hv
    rw [vertices_triangleRemove] at hv
    rw [hlist]
    split
    · exact (h.trilist_nodup v hv).erase t
    · exact h.trilist_nodup v hv
  · intro v hv s
    rw [vertices_triangleRemove] at hv
    rw [hlist, triangles_triangleRemove, hmem]
    by_cases hst : s = t
    · subst hst
      split
      · simp [(h.trilist_nodup v hv).mem_erase_iff]
      · rename_i hc
        exact ⟨fun hs => absurd ((h.mem_trilist v hv s).1 hs).2 hc,
          fun hs => absurd rfl hs.1.1⟩
    · rw [face_triangleRemove hst]
      split
      · rw [(h.trilist_nodup v hv).mem_erase_iff, h.mem_trilist v hv, and_assoc]
      · rw [h.mem_trilist v hv]
        exact ⟨fun hs => ⟨⟨hst, hs.1⟩, hs.2⟩, fun hs => ⟨hs.1.2, hs.2⟩⟩

end Remove

end Mesh

end PureDataPacket
