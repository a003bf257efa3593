/-
# `PureDataPacket.Mesh.Addresses` — addresses of which the low half is compared

The lists of pointers compare the low 32 bits of an address.  While these are
different for different vertices, and for different triangles, they might as
well compare addresses: a list that is searched has vertices only, or triangles
only.

So a mesh is taken through a run twice, with both comparisons.  `Held` says
where the addresses in a mesh come from, every operation that finds a mesh so
leaves it so, and there it does the same in both runs.
-/
import PureDataPacket.Mesh.Neighbours
import Mathlib.Data.List.Find

namespace PureDataPacket

namespace Mesh

/-- No two vertices of a mesh look the same to a list of pointers, and no two triangles that it
ever had. -/
structure Distinct (word : Nat → Nat) (m : Mesh) : Prop where
  vertices : ∀ u ∈ m.vertices, ∀ v ∈ m.vertices, word u = word v → u = v
  triangles : ∀ s ∈ m.made, ∀ t ∈ m.made, word s = word t → s = t

/-- The vertices that a triangle refers to are in `V`. -/
structure Refers (V : Set Nat) (x : Triangle) : Prop where
  v0 : x.v0 ∈ V
  v1 : x.v1 ∈ V
  v2 : x.v2 ∈ V
  m0 : ∀ v ∈ x.m0, v ∈ V
  m1 : ∀ v ∈ x.m1, v ∈ V
  m2 : ∀ v ∈ x.m2, v ∈ V

/-- The vertices in lists are in `V`, and the triangles in `T`. -/
structure Held (V T : Set Nat) (m : Mesh) : Prop where
  nodup : m.triangles.Nodup
  triangles : ∀ t ∈ m.triangles, t ∈ T
  vertlist : ∀ u, ∀ v ∈ (m.vtx u).vertlist, v ∈ V
  trilist : ∀ u, ∀ t ∈ (m.vtx u).trilist, t ∈ T
  refers : ∀ t ∈ m.triangles, Refers V (m.tri t)

/-- What `pdp_alloc` gave until now is in `V` and in `T`. -/
structure Given (V T : Set Nat) (m : Mesh) : Prop where
  vertices : ∀ v ∈ m.vertices, v ∈ V
  made : ∀ t ∈ m.made, t ∈ T

variable {V T : Set Nat} {word : Nat → Nat} {A : MeshAlloc} {m : Mesh} {t v0 v1 v2 : Nat}
  {fs : List (Face Nat)} {l : List Nat} {messages : List Split}

/-! ## What was given -/

theorem Given.vertexAdd (h : Given V T (m.meshVertexAdd A).2) : A.vertex m ∈ V ∧ Given V T m :=
  ⟨h.vertices _ List.mem_cons_self,
    fun v hv => h.vertices v (List.mem_cons_of_mem _ hv), h.made⟩

theorem Given.triangleAdd (h : Given V T (m.meshTriangleAdd word A v0 v1 v2)) :
    A.triangle m ∈ T ∧ Given V T m := by
  have hmade : (m.triangleNew word (A.triangle m) v0 v1 v2).made = m.made := by
    simp [triangleNew, vertexAddTriangle, vertexAddNeighbour, modifyVertex]
  have hvertices : (m.triangleNew word (A.triangle m) v0 v1 v2).vertices = m.vertices := by
    simp [triangleNew, vertexAddTriangle, vertexAddNeighbour]
  obtain ⟨hv, hm⟩ := h
  simp only [meshTriangleAdd, hmade, hvertices, List.mem_cons, forall_eq_or_imp] at hv hm
  exact ⟨hm.1, hv, hm.2⟩

theorem Given.triangleRemove (h : Given V T (m.meshTriangleRemove word t)) : Given V T m where
  vertices := by simpa [meshTriangleRemove, triangleFree, vertexRemoveTriangle] using h.vertices
  made := by
    simpa [meshTriangleRemove, triangleFree, vertexRemoveTriangle, modifyVertex] using h.made

theorem Given.addFaces (h : Given V T (m.addFaces word A fs)) : Given V T m := by
  induction fs generalizing m with
  | nil => exact h
  | cons f fs ih =>
      rw [addFaces_cons] at h
      exact (ih h).triangleAdd.2

theorem Given.getMedian {s : Option Nat} (h : Given V T (m.getMedian word A t s v0 v1).2) :
    (s = none → A.vertex m ∈ V) ∧ Given V T m := by
  unfold Mesh.getMedian at h
  cases s with
  | some v => exact ⟨nofun, h⟩
  | none =>
      have hadd : Given V T (m.meshVertexAdd A).2 := by
        dsimp only at h
        split at h
        · exact ⟨h.vertices, h.made⟩
        · exact h
      exact ⟨fun _ => hadd.vertexAdd.1, hadd.vertexAdd.2⟩

theorem Given.splitThree (h : Given V T (m.meshSplitThree word A t)) : Given V T m := by
  rw [meshSplitThree_eq] at h
  exact h.addFaces.vertexAdd.2.triangleRemove

theorem Given.splitFour (h : Given V T (m.meshSplitFour word A t)) : Given V T m := by
  rw [meshSplitFour_eq] at h
  exact h.addFaces.triangleRemove.getMedian.2.getMedian.2.getMedian.2

theorem Given.foldl {α : Type} {step : Mesh → α → Mesh}
    (hstep : ∀ {m a}, Given V T (step m a) → Given V T m) {l : List α}
    (h : Given V T (l.foldl step m)) : Given V T m := by
  induction l generalizing m with
  | nil => exact h
  | cons a l ih => exact hstep (ih h)

theorem Given.split {s : Split} (h : Given V T (m.split word A s)) : Given V T m := by
  cases s with
  | allFour => exact Given.foldl Given.splitFour h
  | allThree => exact Given.foldl Given.splitThree h
  | randomThree random =>
      simp only [Mesh.split, meshSplitRandomThree] at h
      split at h
      · exact h.splitThree
      · exact h

/-! ## Lists that are searched -/

section Agree

variable (hV : Set.InjOn word V) (hT : Set.InjOn word T)

/-- A list with elements of `V` has no other element that looks like one of `V`. -/
theorem eq_of_injOn {S : Set Nat} (h : Set.InjOn word S) {a : Nat} (hl : ∀ b ∈ l, b ∈ S)
    (ha : a ∈ S) : ∀ b ∈ l, word b = word a → b = a :=
  fun b hb heq => h (hl b hb) ha heq

include hV in
theorem vertexAddNeighbour_agree (h : ∀ u, ∀ v ∈ (m.vtx u).vertlist, v ∈ V) (w : Nat) {n : Nat}
    (hn : n ∈ V) : m.vertexAddNeighbour word w n = m.vertexAddNeighbour id w n ∧
      ∀ u, ∀ v ∈ ((m.vertexAddNeighbour id w n).vtx u).vertlist, v ∈ V := by
  constructor
  · simp only [vertexAddNeighbour, modifyVertex,
      listAddPointerToSet_eq (eq_of_injOn hV (h w) hn), listAddPointerToSet_id]
  · intro u v hv
    rcases (mem_vertlist_vertexAddNeighbour m w n u v).1 hv with hv | ⟨-, rfl⟩
    · exact h u v hv
    · exact hn

include hV in
theorem triangleNew_agree (h : ∀ u, ∀ v ∈ (m.vtx u).vertlist, v ∈ V) (t : Nat) (h0 : v0 ∈ V)
    (h1 : v1 ∈ V) (h2 : v2 ∈ V) : m.triangleNew word t v0 v1 v2 = m.triangleNew id t v0 v1 v2 ∧
      ∀ u, ∀ v ∈ ((m.triangleNew id t v0 v1 v2).vtx u).vertlist, v ∈ V := by
  dsimp only [triangleNew]
  generalize hm₁ : ((Mesh.mk m.vertices m.triangles m.vtx
    (Function.update m.tri t ⟨v0, v1, v2, none, none, none⟩) m.made).vertexAddTriangle
      v0 t |>.vertexAddTriangle v1 t |>.vertexAddTriangle v2 t) = m₁
  have hm : ∀ u, ∀ v ∈ (m₁.vtx u).vertlist, v ∈ V := by
    intro u
    rw [← hm₁]
    simp only [vertlist_vertexAddTriangle]
    exact h u
  obtain ⟨e₁, hm⟩ := vertexAddNeighbour_agree hV hm v0 h1
  rw [e₁]
  obtain ⟨e₂, hm⟩ := vertexAddNeighbour_agree hV hm v0 h2
  rw [e₂]
  obtain ⟨e₃, hm⟩ := vertexAddNeighbour_agree hV hm v1 h0
  rw [e₃]
  obtain ⟨e₄, hm⟩ := vertexAddNeighbour_agree hV hm v1 h2
  rw [e₄]
  obtain ⟨e₅, hm⟩ := vertexAddNeighbour_agree hV hm v2 h0
  rw [e₅]
  exact vertexAddNeighbour_agree hV hm v2 h1

include hT in
theorem vertexRemoveTriangle_agree (h : ∀ u, ∀ s ∈ (m.vtx u).trilist, s ∈ T) (w : Nat)
    (ht : t ∈ T) : m.vertexRemoveTriangle word w t = m.vertexRemoveTriangle id w t ∧
      ∀ u, ∀ s ∈ ((m.vertexRemoveTriangle id w t).vtx u).trilist, s ∈ T := by
  constructor
  · simp only [vertexRemoveTriangle, modifyVertex,
      listRemovePointer_eq (eq_of_injOn hT (h w) ht), listRemovePointer_id]
  · intro u s hs
    rw [trilist_vertexRemoveTriangle] at hs
    split at hs
    · exact h u s (List.mem_of_mem_erase hs)
    · exact h u s hs

theorem mem_trilist_vertexAddTriangle {v s u : Nat}
    (h : s ∈ ((m.vertexAddTriangle v t).vtx u).trilist) : s = t ∨ s ∈ (m.vtx u).trilist := by
  rw [trilist_vertexAddTriangle] at h
  split at h
  · exact List.mem_cons.1 h
  · exact Or.inr h

/-! ## Operations -/

namespace Held

theorem vertexAdd (h : Held V T m) (A : MeshAlloc) : Held V T (m.meshVertexAdd A).2 where
  nodup := h.nodup
  triangles := h.triangles
  vertlist u v hv := by
    rw [vertlist_vertexAdd] at hv
    split at hv
    · cases hv
    · exact h.vertlist u v hv
  trilist u t ht := by
    by_cases hu : u = A.vertex m
    · simp [meshVertexAdd, hu] at ht
    · simp only [meshVertexAdd, Function.update_of_ne hu] at ht
      exact h.trilist u t ht
  refers := h.refers

include hV in
theorem triangleAdd (h : Held V T m) (h0 : v0 ∈ V) (h1 : v1 ∈ V) (h2 : v2 ∈ V)
    (hT' : A.triangle m ∈ T) :
    m.meshTriangleAdd word A v0 v1 v2 = m.meshTriangleAdd id A v0 v1 v2 ∧
      Held V T (m.meshTriangleAdd id A v0 v1 v2) := by
  obtain ⟨heq, hvert⟩ := triangleNew_agree hV h.vertlist (A.triangle m) h0 h1 h2
  refine ⟨by simp only [meshTriangleAdd, heq], ?_, ?_, hvert, ?_, ?_⟩
  · rw [triangles_triangleAdd]
    exact List.nodup_cons.2 ⟨A.triangle_notMem m, h.nodup⟩
  · rw [triangles_triangleAdd]
    exact List.forall_mem_cons.2 ⟨hT', h.triangles⟩
  · intro u t ht
    simp only [vtx_triangleAdd, triangleNew, trilist_vertexAddNeighbour] at ht
    rcases mem_trilist_vertexAddTriangle ht with rfl | ht
    · exact hT'
    · rcases mem_trilist_vertexAddTriangle ht with rfl | ht
      · exact hT'
      · rcases mem_trilist_vertexAddTriangle ht with rfl | ht
        · exact hT'
        · exact h.trilist u t ht
  · rw [triangles_triangleAdd]
    refine List.forall_mem_cons.2 ⟨?_, fun t ht => ?_⟩
    · rw [tri_triangleAdd_eq, Function.update_self]
      have hnone : ∀ v ∈ (none : Option Nat), v ∈ V := by simp
      exact ⟨h0, h1, h2, hnone, hnone, hnone⟩
    · rw [tri_triangleAdd ht]
      exact h.refers t ht

include hT in
theorem triangleRemove (h : Held V T m) (ht : t ∈ m.triangles) :
    m.meshTriangleRemove word t = m.meshTriangleRemove id t ∧
      Held V T (m.meshTriangleRemove id t) := by
  have htT := h.triangles t ht
  have hlist : listRemovePointer word m.triangles t = m.triangles.erase t :=
    listRemovePointer_eq (eq_of_injOn hT h.triangles htT)
  have hm : ∀ u, ∀ s ∈ (({ m with triangles := m.triangles.erase t } : Mesh).vtx u).trilist,
      s ∈ T := h.trilist
  obtain ⟨e₁, hm⟩ := vertexRemoveTriangle_agree hT hm (m.tri t).v0 htT
  obtain ⟨e₂, hm⟩ := vertexRemoveTriangle_agree hT hm (m.tri t).v1 htT
  obtain ⟨e₃, hm⟩ := vertexRemoveTriangle_agree hT hm (m.tri t).v2 htT
  have hid : m.meshTriangleRemove id t = _ := rfl
  simp only [meshTriangleRemove, triangleFree, listRemovePointer_id] at hid
  refine ⟨?_, ?_, ?_, ?_, ?_, ?_⟩
  · simp only [meshTriangleRemove, triangleFree, hlist, listRemovePointer_id, e₁, e₂, e₃]
  · rw [triangles_triangleRemove]
    exact h.nodup.erase t
  · rw [triangles_triangleRemove]
    exact fun s hs => h.triangles s (List.mem_of_mem_erase hs)
  · intro u
    rw [vertlist_triangleRemove]
    exact h.vertlist u
  · simp only [meshTriangleRemove, triangleFree, listRemovePointer_id]
    exact hm
  · rw [triangles_triangleRemove]
    intro s hs
    obtain ⟨hne, hs⟩ := h.nodup.mem_erase_iff.1 hs
    rw [tri_triangleRemove hne]
    exact h.refers s hs

theorem triangleAddMedian (h : Held V T m) (s v0 v1 : Nat) {w : Nat} (hw : w ∈ V) :
    Held V T (m.triangleAddMedian s v0 v1 w) where
  nodup := h.nodup
  triangles := h.triangles
  vertlist := h.vertlist
  trilist := h.trilist
  refers := by
    intro u hu
    have hx := h.refers u hu
    have hmedian : ∀ v ∈ some w, v ∈ V := by simpa using hw
    by_cases hus : u = s
    · subst hus
      simp only [Mesh.triangleAddMedian, Function.update_self]
      split
      · exact { hx with m0 := hmedian }
      · split
        · exact { hx with m1 := hmedian }
        · exact { hx with m2 := hmedian }
    · simp only [Mesh.triangleAddMedian, Function.update_of_ne hus]
      exact hx

include hT in
theorem triangleNeighbour (h : Held V T m) (t v0 v1 : Nat) :
    m.triangleNeighbour word t v0 v1 = m.triangleNeighbour id t v0 v1 := by
  refine List.find?_congr fun s hs => ?_
  rw [listContainsPointer_id,
    listContainsPointer_eq (eq_of_injOn hT (h.trilist v0) (h.trilist v1 s hs))]

include hT in
theorem getMedian (h : Held V T m) {s : Option Nat} (hs : ∀ v ∈ s, v ∈ V)
    (hnew : s = none → A.vertex m ∈ V) (t v0 v1 : Nat) :
    m.getMedian word A t s v0 v1 = m.getMedian id A t s v0 v1 ∧
      Held V T (m.getMedian id A t s v0 v1).2 ∧ (m.getMedian id A t s v0 v1).1 ∈ V ∧
      (m.getMedian id A t s v0 v1).2.triangles = m.triangles := by
  unfold Mesh.getMedian
  cases s with
  | some v => exact ⟨rfl, h, hs v rfl, rfl⟩
  | none =>
      have hadd := h.vertexAdd A
      dsimp only
      rw [hadd.triangleNeighbour hT]
      refine ⟨rfl, ?_⟩
      split
      · exact ⟨hadd.triangleAddMedian _ _ _ (hnew rfl), hnew rfl, rfl⟩
      · exact ⟨hadd, hnew rfl, rfl⟩

include hV in
theorem addFaces (h : Held V T m) (hfs : ∀ f ∈ fs, f.a ∈ V ∧ f.b ∈ V ∧ f.c ∈ V)
    (hg : Given V T (m.addFaces word A fs)) :
    m.addFaces word A fs = m.addFaces id A fs ∧ Held V T (m.addFaces id A fs) ∧
      m.triangles ⊆ (m.addFaces id A fs).triangles := by
  induction fs generalizing m with
  | nil =>
      have hnil : ∀ word, m.addFaces word A [] = m := fun _ => rfl
      rw [hnil, hnil]
      exact ⟨rfl, h, fun _ ht => ht⟩
  | cons f fs ih =>
      obtain ⟨h0, h1, h2⟩ := hfs f List.mem_cons_self
      rw [addFaces_cons] at hg ⊢
      obtain ⟨heq, hadd⟩ := h.triangleAdd hV h0 h1 h2 hg.addFaces.triangleAdd.1
      rw [heq] at hg ⊢
      obtain ⟨heq, hend, hsub⟩ := ih hadd (fun g hg => hfs g (List.mem_cons_of_mem _ hg)) hg
      refine ⟨by rw [heq, addFaces_cons], by rwa [addFaces_cons], fun t ht => ?_⟩
      rw [addFaces_cons]
      exact hsub (by rw [triangles_triangleAdd]; exact List.mem_cons_of_mem _ ht)

/-- What a division does to a mesh that is held, whatever a list of pointers compares. -/
structure Same (V T : Set Nat) (m : Mesh) (t : Nat) (m' m'' : Mesh) : Prop where
  eq : m' = m''
  held : Held V T m''
  left : ∀ s ∈ m.triangles, s ≠ t → s ∈ m''.triangles

include hV hT in
theorem splitThree (h : Held V T m) (ht : t ∈ m.triangles)
    (hg : Given V T (m.meshSplitThree word A t)) :
    Same V T m t (m.meshSplitThree word A t) (m.meshSplitThree id A t) := by
  have hx := h.refers t ht
  obtain ⟨heq, hrem⟩ := h.triangleRemove hT ht
  rw [meshSplitThree_eq, heq] at hg
  have hn := hg.addFaces.vertexAdd.1
  have hcone : ∀ f ∈ (m.face t).cone (A.vertex (m.meshTriangleRemove id t)),
      f.a ∈ V ∧ f.b ∈ V ∧ f.c ∈ V := by
    simp only [Face.cone, face, List.mem_cons, List.not_mem_nil, or_false, forall_eq_or_imp,
      forall_eq]
    exact ⟨⟨hx.v0, hx.v1, hn⟩, ⟨hx.v1, hx.v2, hn⟩, ⟨hx.v2, hx.v0, hn⟩⟩
  obtain ⟨heq', hend, hsub⟩ := (hrem.vertexAdd A).addFaces hV hcone hg
  rw [meshSplitThree_eq, meshSplitThree_eq, heq, heq']
  refine ⟨rfl, hend, fun s hs hne => hsub ?_⟩
  show s ∈ (m.meshTriangleRemove id t).triangles
  rw [triangles_triangleRemove]
  exact h.nodup.mem_erase_iff.2 ⟨hne, hs⟩

include hV hT in
theorem splitFour (h : Held V T m) (ht : t ∈ m.triangles)
    (hg : Given V T (m.meshSplitFour word A t)) :
    Same V T m t (m.meshSplitFour word A t) (m.meshSplitFour id A t) := by
  have hx := h.refers t ht
  rw [meshSplitFour_eq] at hg
  rw [meshSplitFour_eq, meshSplitFour_eq]
  dsimp only at hg ⊢
  have hg₃ := hg.addFaces.triangleRemove.getMedian.2.getMedian.2.getMedian.1
  obtain ⟨e₃, h₃, hv₃, ht₃⟩ := h.getMedian hT hx.m0 hg₃ t (m.face t).a (m.face t).b
  rw [e₃] at hg ⊢
  generalize m.getMedian id A t (m.tri t).m0 (m.face t).a (m.face t).b = r₃ at hg h₃ hv₃ ht₃ ⊢
  have hg₄ := hg.addFaces.triangleRemove.getMedian.2.getMedian.1
  obtain ⟨e₄, h₄, hv₄, ht₄⟩ := h₃.getMedian hT hx.m1 hg₄ t (m.face t).b (m.face t).c
  rw [e₄] at hg ⊢
  generalize r₃.2.getMedian id A t (m.tri t).m1 (m.face t).b (m.face t).c = r₄ at hg h₄ hv₄ ht₄ ⊢
  have hg₅ := hg.addFaces.triangleRemove.getMedian.1
  obtain ⟨e₅, h₅, hv₅, ht₅⟩ := h₄.getMedian hT hx.m2 hg₅ t (m.face t).c (m.face t).a
  rw [e₅] at hg ⊢
  generalize r₄.2.getMedian id A t (m.tri t).m2 (m.face t).c (m.face t).a = r₅ at hg h₅ hv₅ ht₅ ⊢
  have htri : r₅.2.triangles = m.triangles := ht₅.trans (ht₄.trans ht₃)
  obtain ⟨heq, hrem⟩ := h₅.triangleRemove hT (htri ▸ ht)
  rw [heq] at hg ⊢
  obtain ⟨heq', hend, hsub⟩ := hrem.addFaces hV (by
    simp only [face, List.mem_cons, List.not_mem_nil, or_false, forall_eq_or_imp, forall_eq]
    exact ⟨⟨hx.v0, hv₃, hv₅⟩, ⟨hx.v1, hv₄, hv₃⟩, ⟨hx.v2, hv₅, hv₄⟩, ⟨hv₃, hv₄, hv₅⟩⟩) hg
  refine ⟨heq', hend, fun s hs hne => hsub ?_⟩
  rw [triangles_triangleRemove, htri]
  exact h.nodup.mem_erase_iff.2 ⟨hne, hs⟩

/-- The loop of `mesh_split_all_four`, and of `mesh_split_all_three`. -/
theorem foldl {f g : Mesh → Nat → Mesh}
    (hgiven : ∀ {m t}, Given V T (f m t) → Given V T m)
    (hstep : ∀ {m t}, Held V T m → t ∈ m.triangles → Given V T (f m t) →
      Same V T m t (f m t) (g m t)) :
    ∀ {m : Mesh}, Held V T m → l.Nodup → (∀ t ∈ l, t ∈ m.triangles) → Given V T (l.foldl f m) →
      l.foldl f m = l.foldl g m ∧ Held V T (l.foldl g m) := by
  induction l with
  | nil => exact fun h _ _ _ => ⟨rfl, h⟩
  | cons t l ih =>
      intro m h hl hmem hg
      obtain ⟨htl, hl⟩ := List.nodup_cons.1 hl
      obtain ⟨heq, hheld, hleft⟩ := hstep h (hmem t List.mem_cons_self) (Given.foldl hgiven hg)
      rw [List.foldl_cons, heq] at hg
      rw [List.foldl_cons, List.foldl_cons, heq]
      exact ih hheld hl (fun s hs => hleft s (hmem s (List.mem_cons_of_mem _ hs)) fun he =>
        htl (he ▸ hs)) hg

include hV hT in
theorem split (h : Held V T m) (s : Split) (hg : Given V T (m.split word A s)) :
    m.split word A s = m.split id A s ∧ Held V T (m.split id A s) := by
  cases s with
  | allFour => exact foldl Given.splitFour (splitFour hV hT) h h.nodup (fun _ ht => ht) hg
  | allThree => exact foldl Given.splitThree (splitThree hV hT) h h.nodup (fun _ ht => ht) hg
  | randomThree random =>
      simp only [Mesh.split, meshSplitRandomThree] at hg ⊢
      split at hg
      · next t hget =>
          obtain ⟨heq, hheld, -⟩ := h.splitThree hV hT (List.mem_of_getElem? hget) hg
          exact ⟨heq, hheld⟩
      · exact ⟨rfl, h⟩

include hV in
theorem tetra (hg : Given V T (meshNewTetra word A)) :
    meshNewTetra word A = meshNewTetra id A ∧ Held V T (meshNewTetra id A) := by
  have hnew : Held V T meshNew :=
    ⟨List.nodup_nil, nofun, fun _ => nofun, fun _ => nofun, nofun⟩
  have heq := meshNewTetra_eq A
  dsimp only at heq
  rw [heq] at hg
  rw [heq, heq]
  have hg₃ := hg.addFaces.vertexAdd
  have hg₂ := hg₃.2.vertexAdd
  have hg₁ := hg₂.2.vertexAdd
  have hg₀ := hg₁.2.vertexAdd
  obtain ⟨heq', hend, -⟩ := ((((hnew.vertexAdd A).vertexAdd A).vertexAdd A).vertexAdd A).addFaces hV
    (by
      simp only [List.mem_cons, List.not_mem_nil, or_false, forall_eq_or_imp, forall_eq]
      exact ⟨⟨hg₀.1, hg₁.1, hg₂.1⟩, ⟨hg₁.1, hg₀.1, hg₃.1⟩, ⟨hg₀.1, hg₂.1, hg₃.1⟩,
        ⟨hg₁.1, hg₃.1, hg₂.1⟩⟩) hg
  exact ⟨heq', hend⟩

include hV hT in
theorem run : ∀ {m : Mesh}, Held V T m → Given V T (messages.foldl (Mesh.split word A) m) →
    messages.foldl (Mesh.split word A) m = messages.foldl (Mesh.split id A) m := by
  induction messages with
  | nil => exact fun _ _ => rfl
  | cons s messages ih =>
      intro m h hg
      obtain ⟨heq, hheld⟩ := h.split hV hT s (Given.foldl Given.split hg)
      rw [List.foldl_cons, heq] at hg
      rw [List.foldl_cons, List.foldl_cons, heq]
      exact ih hheld hg

end Held

end Agree

/-! ## Runs -/

theorem run_eq_of_distinct (h : Distinct word (run word A messages)) :
    run word A messages = run id A messages := by
  obtain ⟨V, hV⟩ : ∃ V : Set Nat, V = {v | v ∈ (run word A messages).vertices} := ⟨_, rfl⟩
  obtain ⟨T, hT⟩ : ∃ T : Set Nat, T = {t | t ∈ (run word A messages).made} := ⟨_, rfl⟩
  have hVinj : Set.InjOn word V := fun u hu v hv heq =>
    h.vertices u (by simpa [hV] using hu) v (by simpa [hV] using hv) heq
  have hTinj : Set.InjOn word T := fun s hs t ht heq =>
    h.triangles s (by simpa [hT] using hs) t (by simpa [hT] using ht) heq
  have hg : Given V T (run word A messages) :=
    ⟨fun v hv => by simpa [hV] using hv, fun t ht => by simpa [hT] using ht⟩
  obtain ⟨heq, hheld⟩ := Held.tetra hVinj (Given.foldl Given.split hg)
  unfold run at hg ⊢
  rw [heq] at hg ⊢
  exact hheld.run hVinj hTinj hg

/-- A number that is greater than all of `l`. -/
def above (l : List Nat) : Nat := l.foldr (fun a n => a + n) 1

theorem above_notMem (l : List Nat) : above l ∉ l := by
  have hlt : ∀ a ∈ l, a < above l := by
    unfold above
    induction l with
    | nil => exact fun a ha => by cases ha
    | cons b l ih =>
        intro a ha
        rw [List.foldr_cons]
        rcases List.mem_cons.mp ha with rfl | ha
        · have hpos : ∀ l : List Nat, 0 < l.foldr (fun a n => a + n) 1 := by
            intro l
            induction l with
            | nil => exact Nat.one_pos
            | cons c l ih => exact Nat.add_pos_right c ih
          have := hpos l
          omega
        · have := ih a ha
          omega
  exact fun hmem => Nat.lt_irrefl _ (hlt _ hmem)

/-- Addresses are not given out again. -/
def nextAddress : MeshAlloc where
  vertex m := above m.vertices
  triangle m := above m.triangles
  vertex_notMem m := above_notMem m.vertices
  triangle_notMem m := above_notMem m.triangles

/-- Vertices are linked as they should be until the triangles are divided into four. -/
theorem linked_run_iff (A : MeshAlloc) (messages : List Split)
    (h : Distinct u32 (run u32 A messages)) :
    Linked (run u32 A messages) ↔ Split.allFour ∉ messages := by
  rw [run_eq_of_distinct h]
  exact linked_whole_iff A messages

theorem distinct_of_eq {vertices made : List Nat} (hv : m.vertices = vertices)
    (ht : m.made = made) (hvlt : ∀ v ∈ vertices, v < 2 ^ 32) (htlt : ∀ t ∈ made, t < 2 ^ 32) :
    Distinct u32 m where
  vertices u hu v hv' heq := by
    rwa [u32_eq_self (hvlt u (hv ▸ hu)), u32_eq_self (hvlt v (hv ▸ hv'))] at heq
  triangles s hs t ht' heq := by
    rwa [u32_eq_self (htlt s (ht ▸ hs)), u32_eq_self (htlt t (ht ▸ ht'))] at heq

theorem linked_run_three : Linked (run u32 nextAddress [.allThree, .randomThree 5]) := by
  have hv : (run u32 nextAddress [.allThree, .randomThree 5]).vertices =
      [256, 128, 64, 32, 16, 8, 4, 2, 1] := by decide +kernel
  have ht : (run u32 nextAddress [.allThree, .randomThree 5]).made =
      [120424, 60212, 30106, 15292, 7646, 3823, 1912, 956, 478, 240, 120, 60, 32, 16, 8, 8, 4, 2,
        1] := by decide +kernel
  exact (linked_run_iff nextAddress [.allThree, .randomThree 5]
    (distinct_of_eq hv ht (by decide) (by decide))).2 (by simp)

/-- The tetrahedron, once divided into four. -/
theorem not_linked_run : ¬ Linked (run u32 nextAddress [.allFour]) := by
  have hv : (run u32 nextAddress [.allFour]).vertices =
      [512, 256, 128, 64, 32, 16, 8, 4, 2, 1] := by decide +kernel
  have ht : (run u32 nextAddress [.allFour]).made =
      [253688, 126844, 63422, 31711, 15856, 7928, 3964, 1982, 992, 496, 248, 124, 64, 32, 16, 8,
        8, 4, 2, 1] := by decide +kernel
  rw [run_eq_of_distinct (distinct_of_eq hv ht (by decide) (by decide)), linked_whole_iff]
  simp

end Mesh

end PureDataPacket
