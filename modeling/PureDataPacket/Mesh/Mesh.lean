/-
# `PureDataPacket.Mesh.Mesh` — triangle meshes and their subdivision

A mesh has vertices and triangles, which refer to each other: a triangle to its
three corners, a vertex to the triangles and the vertices around it.  All of
them are addresses, and the contents are in two memories.

`mesh_split_four` makes the vertices in the middle of the sides.  Half of them
it finds in the triangle: the neighbour that was divided before has left them
in `m[k]`.

Lists of pointers are lists of addresses: `pdp_list_add` is in front, and
`pdp_list_remove` takes the first of its kind.  These lists do not compare
addresses but what an atom shows of them, `word`, which is the low 32 bits in
the code.  With `id` for it whole addresses are compared.

Where vertices are, and where they face, is not in the model: no list and no
reference depends on it.
-/
import PureDataPacket.Lib.Surface
import PureDataPacket.Lib.CInt

namespace PureDataPacket

/-- `t_vertex`. -/
structure Vertex where
  trilist : List Nat
  vertlist : List Nat

/-- `t_triangle`. -/
structure Triangle where
  v0 : Nat
  v1 : Nat
  v2 : Nat
  /-- the median vertices, `m[0]` between `v[0]` and `v[1]` and so on -/
  m0 : Option Nat
  m1 : Option Nat
  m2 : Option Nat

/-- `t_mesh`, with the memory of its vertices and triangles. -/
structure Mesh where
  vertices : List Nat
  triangles : List Nat
  vtx : Nat → Vertex
  tri : Nat → Triangle
  /-- the triangles that were ever made, which no function reads -/
  made : List Nat

/-- `pdp_alloc`: an address that is not in use.  That of a triangle that was freed may be
given out again. -/
structure MeshAlloc where
  vertex : Mesh → Nat
  triangle : Mesh → Nat
  vertex_notMem : ∀ m, vertex m ∉ m.vertices
  triangle_notMem : ∀ m, triangle m ∉ m.triangles

namespace Mesh

/-! ## Lists of pointers -/

section Pointers

variable (word : Nat → Nat) (l : List Nat) (a : Nat)

/-- `pdp_list_contains_pointer`. -/
def listContainsPointer : Bool := l.any fun b => word b == word a

/-- `pdp_list_remove_pointer`. -/
def listRemovePointer : List Nat := l.eraseP fun b => word b == word a

/-- `pdp_list_add_pointer_to_set`. -/
def listAddPointerToSet : List Nat := if listContainsPointer word l a then l else a :: l

end Pointers

/-! ## Vertices and triangles -/

def modifyVertex (m : Mesh) (v : Nat) (g : Vertex → Vertex) : Mesh :=
  { m with vtx := Function.update m.vtx v (g (m.vtx v)) }

/-- `vertex_add_triangle`. -/
def vertexAddTriangle (m : Mesh) (v t : Nat) : Mesh :=
  m.modifyVertex v fun x => { x with trilist := t :: x.trilist }

/-- `vertex_remove_triangle`. -/
def vertexRemoveTriangle (word : Nat → Nat) (m : Mesh) (v t : Nat) : Mesh :=
  m.modifyVertex v fun x => { x with trilist := listRemovePointer word x.trilist t }

/-- `vertex_add_neighbour`, to a set. -/
def vertexAddNeighbour (word : Nat → Nat) (m : Mesh) (v neighbour : Nat) : Mesh :=
  m.modifyVertex v fun x => { x with vertlist := listAddPointerToSet word x.vertlist neighbour }

/-- `_triangle_new`, at address `t`. -/
def triangleNew (word : Nat → Nat) (m : Mesh) (t v0 v1 v2 : Nat) : Mesh :=
  let m := { m with tri := Function.update m.tri t ⟨v0, v1, v2, none, none, none⟩ }
  let m := m.vertexAddTriangle v0 t
  let m := m.vertexAddTriangle v1 t
  let m := m.vertexAddTriangle v2 t
  let m := m.vertexAddNeighbour word v0 v1
  let m := m.vertexAddNeighbour word v0 v2
  let m := m.vertexAddNeighbour word v1 v0
  let m := m.vertexAddNeighbour word v1 v2
  let m := m.vertexAddNeighbour word v2 v0
  m.vertexAddNeighbour word v2 v1

/-- `_triangle_free`.  The references are set to zero. -/
def triangleFree (word : Nat → Nat) (m : Mesh) (t : Nat) : Mesh :=
  let x := m.tri t
  let m := m.vertexRemoveTriangle word x.v0 t
  let m := m.vertexRemoveTriangle word x.v1 t
  let m := m.vertexRemoveTriangle word x.v2 t
  { m with tri := Function.update m.tri t ⟨0, 0, 0, none, none, none⟩ }

/-- `triangle_neighbour`: another triangle that has both vertices. -/
def triangleNeighbour (word : Nat → Nat) (m : Mesh) (t v0 v1 : Nat) : Option Nat :=
  (m.vtx v1).trilist.find? fun tri =>
    decide (tri ≠ t) && listContainsPointer word (m.vtx v0).trilist tri

/-- `triangle_add_median`.  The slot is the one across the third vertex. -/
def triangleAddMedian (m : Mesh) (t v0 v1 median : Nat) : Mesh :=
  let x := m.tri t
  { m with
    tri := Function.update m.tri t
      (if ¬(v0 = x.v2 ∨ v1 = x.v2) then { x with m0 := some median }
      else if ¬(v0 = x.v0 ∨ v1 = x.v0) then { x with m1 := some median }
      else { x with m2 := some median }) }

/-- `mesh_vertex_add`. -/
def meshVertexAdd (A : MeshAlloc) (m : Mesh) : Nat × Mesh :=
  let v := A.vertex m
  (v, { m with vertices := v :: m.vertices, vtx := Function.update m.vtx v ⟨[], []⟩ })

/-- `mesh_triangle_add`. -/
def meshTriangleAdd (word : Nat → Nat) (A : MeshAlloc) (m : Mesh) (v0 v1 v2 : Nat) : Mesh :=
  let t := A.triangle m
  let m := m.triangleNew word t v0 v1 v2
  { m with triangles := t :: m.triangles, made := t :: m.made }

/-- `mesh_triangle_remove`. -/
def meshTriangleRemove (word : Nat → Nat) (m : Mesh) (t : Nat) : Mesh :=
  triangleFree word { m with triangles := listRemovePointer word m.triangles t } t

/-- `GET_MEDIAN`. -/
def getMedian (word : Nat → Nat) (A : MeshAlloc) (m : Mesh) (oldT : Nat) (v : Option Nat)
    (v0 v1 : Nat) : Nat × Mesh :=
  match v with
  | some v => (v, m)
  | none =>
    let (v, m) := m.meshVertexAdd A
    match m.triangleNeighbour word oldT v0 v1 with
    | some neighbour => (v, m.triangleAddMedian neighbour v0 v1 v)
    | none => (v, m)

/-- `mesh_split_four`. -/
def meshSplitFour (word : Nat → Nat) (A : MeshAlloc) (m : Mesh) (oldT : Nat) : Mesh :=
  let x := m.tri oldT
  let (v3, m) := m.getMedian word A oldT x.m0 x.v0 x.v1
  let (v4, m) := m.getMedian word A oldT x.m1 x.v1 x.v2
  let (v5, m) := m.getMedian word A oldT x.m2 x.v2 x.v0
  let m := m.meshTriangleRemove word oldT
  let m := m.meshTriangleAdd word A x.v0 v3 v5
  let m := m.meshTriangleAdd word A x.v1 v4 v3
  let m := m.meshTriangleAdd word A x.v2 v5 v4
  m.meshTriangleAdd word A v3 v4 v5

/-- `mesh_split_three`. -/
def meshSplitThree (word : Nat → Nat) (A : MeshAlloc) (m : Mesh) (oldT : Nat) : Mesh :=
  let x := m.tri oldT
  let m := m.meshTriangleRemove word oldT
  let (v3, m) := m.meshVertexAdd A
  let m := m.meshTriangleAdd word A x.v0 x.v1 v3
  let m := m.meshTriangleAdd word A x.v1 x.v2 v3
  m.meshTriangleAdd word A x.v2 x.v0 v3

/-- `mesh_split_all_four`: the triangles of a copy of the list. -/
def meshSplitAllFour (word : Nat → Nat) (A : MeshAlloc) (m : Mesh) : Mesh :=
  m.triangles.foldl (meshSplitFour word A) m

/-- `mesh_split_all_three`. -/
def meshSplitAllThree (word : Nat → Nat) (A : MeshAlloc) (m : Mesh) : Mesh :=
  m.triangles.foldl (meshSplitThree word A) m

/-- `mesh_split_random_three`, with the result of `random()`.  The size must not be zero. -/
def meshSplitRandomThree (word : Nat → Nat) (A : MeshAlloc) (m : Mesh) (random : Nat) : Mesh :=
  match m.triangles[random % m.triangles.length]? with
  | some t => m.meshSplitThree word A t
  | none => m

/-- `_mesh_new`. -/
def meshNew : Mesh where
  vertices := []
  triangles := []
  vtx := fun _ => ⟨[], []⟩
  tri := fun _ => ⟨0, 0, 0, none, none, none⟩
  made := []

/-- `mesh_new_tetra`. -/
def meshNewTetra (word : Nat → Nat) (A : MeshAlloc) : Mesh :=
  let (v0, m) := meshNew.meshVertexAdd A
  let (v1, m) := m.meshVertexAdd A
  let (v2, m) := m.meshVertexAdd A
  let (v3, m) := m.meshVertexAdd A
  let m := m.meshTriangleAdd word A v0 v1 v2
  let m := m.meshTriangleAdd word A v1 v0 v3
  let m := m.meshTriangleAdd word A v0 v2 v3
  m.meshTriangleAdd word A v1 v3 v2

/-- The messages that divide the triangles of a mesh. -/
inductive Split where
  | allFour
  | allThree
  | randomThree (random : Nat)

def split (word : Nat → Nat) (A : MeshAlloc) (m : Mesh) : Split → Mesh
  | .allFour => m.meshSplitAllFour word A
  | .allThree => m.meshSplitAllThree word A
  | .randomThree random => m.meshSplitRandomThree word A random

/-! ## The surface of a mesh -/

def face (m : Mesh) (t : Nat) : Face Nat := ⟨(m.tri t).v0, (m.tri t).v1, (m.tri t).v2⟩

def faces (m : Mesh) : List (Face Nat) := m.triangles.map m.face

def edgeCount (m : Mesh) : Nat := (edges m.faces).card

/-- A triangulated sphere with directed edges, and lists of triangles that are right. -/
structure Sphere (m : Mesh) : Prop where
  /-- every directed edge is in exactly one triangle -/
  edge : ∀ t ∈ m.triangles, ∀ e ∈ (m.face t).sides,
    ∀ s ∈ m.triangles, e ∈ (m.face s).sides → s = t
  /-- and its reverse in exactly one other -/
  reverse : ∀ t ∈ m.triangles, ∀ e ∈ (m.face t).sides,
    ∃! s, s ∈ m.triangles ∧ e.swap ∈ (m.face s).sides ∧ s ≠ t
  /-- no triangle is there twice, and none has an edge or a corner twice -/
  triangles : m.triangles.Nodup ∧ ∀ t ∈ m.triangles, (m.face t).corners.Nodup
  vertices : m.vertices.Nodup ∧ ∀ t ∈ m.triangles, ∀ v ∈ (m.face t).corners, v ∈ m.vertices
  trilist : ∀ v ∈ m.vertices, (m.vtx v).trilist.Nodup ∧
    ∀ t, t ∈ (m.vtx v).trilist ↔ t ∈ m.triangles ∧ v ∈ (m.face t).corners
  euler : m.vertices.length + m.triangles.length = m.edgeCount + 2

end Mesh

end PureDataPacket
