/-
# `PureDataPacket.Mesh.Runs` — meshes that are reached

The tetrahedron is intact, so every mesh made from it is.
-/
import PureDataPacket.Mesh.Medians

namespace PureDataPacket

namespace Mesh

variable {m : Mesh} {A : MeshAlloc}

theorem joined_new : Joined meshNew where
  triangles_nodup := List.nodup_nil
  vertices_nodup := List.nodup_nil
  corners_nodup := fun _ ht => absurd ht List.not_mem_nil
  corners_mem := fun _ ht => absurd ht List.not_mem_nil
  trilist_nodup := fun _ hv => absurd hv List.not_mem_nil
  mem_trilist := fun _ hv => absurd hv List.not_mem_nil

/-- `mesh_new_tetra`. -/
theorem intact_tetra (A : MeshAlloc) :
    Intact (meshNewTetra id A) ∧ (meshNewTetra id A).triangles.length = 4 := by
  obtain ⟨m1, hm1⟩ : ∃ m1, m1 = (meshNew.meshVertexAdd A).2 := ⟨_, rfl⟩
  obtain ⟨m2, hm2⟩ : ∃ m2, m2 = (m1.meshVertexAdd A).2 := ⟨_, rfl⟩
  obtain ⟨m3, hm3⟩ : ∃ m3, m3 = (m2.meshVertexAdd A).2 := ⟨_, rfl⟩
  obtain ⟨m4, hm4⟩ : ∃ m4, m4 = (m3.meshVertexAdd A).2 := ⟨_, rfl⟩
  have hj : Joined m4 := by
    rw [hm4, hm3, hm2, hm1]
    exact joined_new.vertexAdd.vertexAdd.vertexAdd.vertexAdd
  have hv : m4.vertices =
      [A.vertex m3, A.vertex m2, A.vertex m1, A.vertex meshNew] := by
    simp [hm4, hm3, hm2, hm1, meshVertexAdd, meshNew]
  have ht : m4.triangles = [] := by
    simp [hm4, hm3, hm2, hm1, meshVertexAdd, meshNew]
  have heq : meshNewTetra id A = addFaces id A m4
      [⟨A.vertex meshNew, A.vertex m1, A.vertex m2⟩, ⟨A.vertex m1, A.vertex meshNew, A.vertex m3⟩,
        ⟨A.vertex meshNew, A.vertex m2, A.vertex m3⟩, ⟨A.vertex m1, A.vertex m3, A.vertex m2⟩] := by
    simp only [hm4, hm3, hm2, hm1, meshNewTetra, addFaces, List.foldl_cons, List.foldl_nil,
      meshVertexAdd]
  have hnd : [A.vertex meshNew, A.vertex m1, A.vertex m2, A.vertex m3].Nodup := by
    have hnd := hj.vertices_nodup
    rw [hv] at hnd
    exact List.nodup_reverse.1 hnd
  have hclosed := closed_tetra hnd
  generalize A.vertex meshNew = v0 at *
  generalize A.vertex m1 = v1 at *
  generalize A.vertex m2 = v2 at *
  generalize A.vertex m3 = v3 at *
  have hgrown : Grown m4 [⟨v0, v1, v2⟩, ⟨v1, v0, v3⟩, ⟨v0, v2, v3⟩, ⟨v1, v3, v2⟩] _ :=
    grown_addFaces A hj fun f hf => by
      refine ⟨hclosed.corners f hf, ?_⟩
      rw [hv]
      simp only [List.mem_cons, List.not_mem_nil, or_false] at hf
      rcases hf with rfl | rfl | rfl | rfl <;> simp [Face.corners]
  rw [← heq] at hgrown
  have hfaces : m4.faces = [] := by rw [Mesh.faces, ht, List.map_nil]
  have hF : (meshNewTetra id A).triangles.length = 4 := by
    rw [hgrown.length, ht]
    rfl
  refine ⟨⟨hgrown.joined, ?_, ?_, ?_⟩, hF⟩
  · refine hclosed.perm ?_
    have hperm := hgrown.faces
    rw [hfaces, List.append_nil] at hperm
    exact hperm.symm
  · exact fun t htm => (hgrown.new t htm (by simp [ht])).2
  · rw [hF, hgrown.vertices, hv]
    rfl

theorem Intact.split (h : Intact m) (hpos : 0 < m.triangles.length) (s : Split) :
    Intact (m.split id A s) ∧ 0 < (m.split id A s).triangles.length := by
  cases s with
  | allFour =>
      obtain ⟨h1, -, hF⟩ := h.splitAllFour (A := A)
      exact ⟨h1, by rw [Mesh.split, hF]; omega⟩
  | allThree =>
      obtain ⟨h1, -, hF⟩ := h.splitAllThree (A := A)
      exact ⟨h1, by rw [Mesh.split, hF]; omega⟩
  | randomThree random =>
      obtain ⟨h1, -, hF⟩ := h.splitRandomThree (A := A) hpos random
      exact ⟨h1, by rw [Mesh.split, hF]; omega⟩

/-- The mesh after a sequence of messages. -/
def run (word : Nat → Nat) (A : MeshAlloc) (messages : List Split) : Mesh :=
  messages.foldl (Mesh.split word A) (meshNewTetra word A)

theorem intact_run (A : MeshAlloc) (messages : List Split) :
    Intact (run id A messages) ∧ 0 < (run id A messages).triangles.length := by
  have hstep : ∀ (messages : List Split) (m : Mesh), Intact m → 0 < m.triangles.length →
      Intact (messages.foldl (Mesh.split id A) m) ∧
        0 < (messages.foldl (Mesh.split id A) m).triangles.length := by
    intro messages
    induction messages with
    | nil => exact fun m h hpos => ⟨h, hpos⟩
    | cons s messages ih =>
        intro m h hpos
        obtain ⟨h1, hpos1⟩ := h.split (A := A) hpos s
        exact ih _ h1 hpos1
  obtain ⟨h, hF⟩ := intact_tetra A
  exact hstep messages _ h (by omega)

/-- In every run the mesh is a sphere, and a message adds what it should. -/
theorem run_sphere (A : MeshAlloc) (messages : List Split) :
    let m := run id A messages
    Sphere m ∧
      ((m.meshSplitAllFour id A).vertices.length = m.vertices.length + m.edgeCount ∧
        (m.meshSplitAllFour id A).triangles.length = 4 * m.triangles.length) ∧
      ((m.meshSplitAllThree id A).vertices.length = m.vertices.length + m.triangles.length ∧
        (m.meshSplitAllThree id A).triangles.length =
          m.triangles.length + 2 * m.triangles.length) ∧
      ∀ random,
        (m.meshSplitRandomThree id A random).vertices.length = m.vertices.length + 1 ∧
        (m.meshSplitRandomThree id A random).triangles.length = m.triangles.length + 2 := by
  intro m
  obtain ⟨h, hpos⟩ := intact_run A messages
  exact ⟨h.sphere, (h.splitAllFour (A := A)).2, (h.splitAllThree (A := A)).2,
    fun random => (h.splitRandomThree (A := A) hpos random).2⟩

end Mesh

end PureDataPacket
