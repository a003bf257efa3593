/-
# `PureDataPacket.Kernel.CloneRw` — where a clone comes from

`pdp_packet_clone_rw` has three ways to get a packet of the same type: an
unused one from the reuse fifo, a new one from the class factory, or a new one
of the same size over which it copies the whole header.

This file says what the first two give: a factory calls one constructor, its
blueprint, and keeps what this makes only if the description is the one it was
asked for; `pdp_packet_reuse` gives an unused packet that matches, if there is one.

| | |
| :-- | :-- |
| `Reusable` | `x` waits in the fifo of `d`, unused, with a description that matches |
| `Exhausted` | what a -1 of `pdp_packet_reuse` says |
| `FactoryMethod.create_eq` | a factory builds its blueprint or makes nothing |
-/
import PureDataPacket.Kernel.Clients

namespace PureDataPacket

open Pool

/-! ## What a factory makes -/

/-- What a factory asks its constructor for. -/
structure Blueprint where
  datatype : Nat
  packetSize : Nat
  init : Meta → Meta

def Blueprint.build (b : Blueprint) : PoolProg Int := construct b.datatype b.packetSize b.init

/-- The header of the packet, when the constructor is done with it. -/
def Blueprint.made (b : Blueprint) : Meta :=
  b.init { type := b.datatype, desc := none, flags := 0, theclass := none, info := ⟨0, 0, 0, 0, 0⟩ }

/-- The image constructors that the factory can call. -/
def imageBlueprint (t : Nat) (s : Symbol) : Blueprint :=
  if t = pdpImageMCHP then
    let w := scannedDim (scanDims 3 s) 0
    let h := scannedDim (scanDims 3 s) 1
    let d := scannedDim (scanDims 3 s) 2
    ⟨pdpImage, imageSizeMchp w h d, imageHeader pdpImageMCHP w h (some d)⟩
  else
    let w := scannedDim (scanDims 2 s) 0
    let h := scannedDim (scanDims 2 s) 1
    if t = pdpImageYV12 then ⟨pdpImage, imageSizeYCrCb w h, imageHeader pdpImageYV12 w h none⟩
    else ⟨pdpImage, imageSizeGrey w h, imageHeader pdpImageGREY w h none⟩

/-- The bitmap constructors that the factory can call. -/
def bitmapBlueprint (t : Nat) (s : Symbol) : Blueprint :=
  let w := scannedDim (scanDims 2 s) 0
  let h := scannedDim (scanDims 2 s) 1
  if t = pdpBitmapGREY then ⟨pdpBitmap, bitmapSizePacked 1 w h, bitmapHeader pdpBitmapGREY w h⟩
  else if t = pdpBitmapYV12 then ⟨pdpBitmap, bitmapSizeYv12 w h, bitmapHeader pdpBitmapYV12 w h⟩
  else ⟨pdpBitmap, bitmapSizePacked 3 w h, bitmapHeader pdpBitmapRGB w h⟩

/-- The constructor call that a factory reads from a type, if it does. -/
def FactoryMethod.blueprint (type : Symbol) : FactoryMethod → Option Blueprint
  | pdpImageFactory =>
      match pdpTypeToList type with
      | _ :: s :: d :: _ => (imageEncodingOf s).map (imageBlueprint · d)
      | _ => none
  | pdpBitmapFactory =>
      match pdpTypeToList type with
      | _ :: s :: d :: _ => (bitmapEncodingOf s).map (bitmapBlueprint · d)
      | _ => none
  | pdpMatrixFactory => none

theorem imageFactoryNew_eq {t : Nat} {s s' : Symbol} (ht : imageEncodingOf s' = some t) :
    imageFactoryNew t s = (imageBlueprint t s).build := by
  unfold imageEncodingOf at ht
  split at ht
  · cases ht
    rfl
  · split at ht
    · cases ht
      rfl
    · split at ht
      · cases ht
        rfl
      · cases ht

theorem pdpPacketNewBitmap_eq {t : Nat} {s s' : Symbol} (ht : bitmapEncodingOf s' = some t) :
    pdpPacketNewBitmap t (scannedDim (scanDims 2 s) 0) (scannedDim (scanDims 2 s) 1) =
      (bitmapBlueprint t s).build := by
  unfold bitmapEncodingOf at ht
  split at ht
  · cases ht
    rfl
  · split at ht
    · cases ht
      rfl
    · split at ht
      · cases ht
        rfl
      · cases ht

/-- A factory builds its blueprint and keeps an exact packet only, or it makes
nothing at all. -/
theorem FactoryMethod.create_eq (f : FactoryMethod) (type : Symbol) :
    (∃ b, f.blueprint type = some b ∧ f.create type = b.build.bind (keepExact type)) ∨
    f.blueprint type = none ∧
      (f.create type = .done (-1) ∨ f.create type = .crash .emptyPop) := by
  cases f with
  | pdpMatrixFactory => exact Or.inr ⟨rfl, Or.inl rfl⟩
  | pdpImageFactory =>
      simp only [create, blueprint, PureDataPacket.pdpImageFactory]
      rcases pdpTypeToList type with _ | ⟨_, _ | ⟨s, _ | ⟨d, _⟩⟩⟩
      · exact Or.inr ⟨rfl, Or.inr rfl⟩
      · exact Or.inr ⟨rfl, Or.inr rfl⟩
      · cases h : imageEncodingOf s with
        | none => exact Or.inr ⟨rfl, Or.inl (by simp only [h]; rfl)⟩
        | some t => exact Or.inr ⟨rfl, Or.inr (by simp only [h])⟩
      · cases h : imageEncodingOf s with
        | none => exact Or.inr ⟨by simp only [h]; rfl, Or.inl (by simp only [h]; rfl)⟩
        | some t =>
            refine Or.inl ⟨imageBlueprint t d, by simp only [h]; rfl, ?_⟩
            rw [← imageFactoryNew_eq h]
            simp only [h]
            rfl
  | pdpBitmapFactory =>
      simp only [create, blueprint, PureDataPacket.pdpBitmapFactory]
      rcases pdpTypeToList type with _ | ⟨_, _ | ⟨s, _ | ⟨d, _⟩⟩⟩
      · exact Or.inr ⟨rfl, Or.inr rfl⟩
      · exact Or.inr ⟨rfl, Or.inr rfl⟩
      · cases h : bitmapEncodingOf s with
        | none => exact Or.inr ⟨rfl, Or.inl (by simp only [h]; rfl)⟩
        | some t => exact Or.inr ⟨rfl, Or.inr (by simp only [h])⟩
      · cases h : bitmapEncodingOf s with
        | none => exact Or.inr ⟨by simp only [h]; rfl, Or.inl (by simp only [h]; rfl)⟩
        | some t =>
            refine Or.inl ⟨bitmapBlueprint t d, by simp only [h]; rfl, ?_⟩
            rw [← pdpPacketNewBitmap_eq h]
            simp only [h]
            rfl

/-- The blueprint of the factory that `pdp_factory_newpacket` calls. -/
def blueprintFor (classes : List PdpClass) (type : Symbol) : Option Blueprint :=
  match classes.find? (·.handles type) with
  | none => none
  | some c => c.create.bind (·.blueprint type)

theorem createFromClass_eq (classes : List PdpClass) (type : Symbol) :
    (∃ b, blueprintFor classes type = some b ∧
      createFromClass classes type = b.build.bind (keepExact type)) ∨
    blueprintFor classes type = none ∧ (createFromClass classes type = .done (-1) ∨
      createFromClass classes type = .crash .emptyPop) := by
  unfold createFromClass blueprintFor
  cases classes.find? (·.handles type) with
  | none => exact Or.inr ⟨rfl, Or.inl rfl⟩
  | some c =>
      dsimp only
      cases c.create with
      | none => exact Or.inr ⟨rfl, Or.inl rfl⟩
      | some f => exact f.create_eq type

/-! ## What the pool gives out -/

/-- A null dereference stops the program; an access out of bounds does not, and
leaves a wrong packet behind. -/
def Tolerated (e : Fault) : Prop := e ≠ .outOfBounds

def AnyFault (_ : Fault) : Prop := True

/-- `x` waits in the fifo of `d`, unused, with a description that matches. -/
def Reusable (s : Pool) (d : Symbol) (x : Int) (q : Packet) : Prop :=
  x ∈ s.reusefifo d ∧ s.pdpPacketHeader x = some q ∧ q.users = 0 ∧
    ∃ d', q.desc = some d' ∧ pdpTypeDescriptionMatch d' d = true

/-! ## `pdp_packet_new` and `pdp_packet_reuse`, the other way round -/

theorem createAt_tolerated {t n slot : Nat} {s : Pool} {e : Fault}
    (hn : pdpHeaderSize ≤ u32 (n + pdpHeaderSize)) (h : createAt t n slot s = .error e) :
    Tolerated e := by
  unfold createAt pdpPacketAllocNolock at h
  simp only at h
  by_cases hi : u32 (n + pdpHeaderSize) < 2 ^ 31
  · rw [dif_pos hi] at h
    cases hm : s.malloc s.mallocs with
    | none =>
        simp only [hm] at h
        cases h
    | some fill =>
        simp only [hm, dif_pos hn] at h
        cases h
  · rw [dif_neg hi] at h
    cases h

theorem pdpPacketNew_tolerated {t n : Nat} {s : Pool} {e : Fault}
    (hn : pdpHeaderSize ≤ u32 (n + pdpHeaderSize)) (h : pdpPacketNew t n s = .error e) :
    Tolerated e := by
  unfold pdpPacketNew pdpPacketCreate pdpPoolExpandNolock at h
  split at h
  · cases h
  · split at h
    · exact createAt_tolerated hn h
    · split at h
      · next he =>
          split at he
          · cases he
            cases h
            exact fun h => by cases h
          · split at he
            · cases he
              cases h
              exact fun h => by cases h
            · cases he
      · exact createAt_tolerated hn h

theorem createAt_ne_neg_one {t n slot : Nat} {s s' : Pool} {r : Int}
    (hm : s.malloc s.mallocs ≠ none) (hn : u32 (n + pdpHeaderSize) < 2 ^ 31)
    (h : createAt t n slot s = .ok (r, s')) : r ≠ -1 := by
  unfold createAt pdpPacketAllocNolock at h
  simp only [dif_pos hn] at h
  cases hk : s.malloc s.mallocs with
  | none => exact absurd hk hm
  | some fill =>
      simp only [hk] at h
      by_cases lo : pdpHeaderSize ≤ u32 (n + pdpHeaderSize)
      · simp only [dif_pos lo] at h
        cases h
        omega
      · simp only [dif_neg lo] at h
        cases h

theorem pdpPacketNew_ne_neg_one {t n : Nat} {s s' : Pool} {r : Int}
    (hm : ∀ k, s.mallocs ≤ k → k < s.mallocs + 2 → s.malloc k ≠ none)
    (hn : u32 (n + pdpHeaderSize) < 2 ^ 31) (h : pdpPacketNew t n s = .ok (r, s')) : r ≠ -1 := by
  unfold pdpPacketNew pdpPacketCreate pdpPoolExpandNolock at h
  split at h
  · cases h
    omega
  · split at h
    · exact createAt_ne_neg_one (hm _ (Nat.le_refl _) (by omega)) hn h
    · split at h
      · cases h
      · next he =>
          split at he
          · cases he
          · split at he
            · cases he
            · cases he
              have hm' : s.tick.grow.malloc s.tick.grow.mallocs ≠ none :=
                hm (s.mallocs + 1) (Nat.le_succ _) (by omega)
              exact createAt_ne_neg_one hm' hn h

/-- A -1 of `pdp_packet_reuse`: there was nothing to reuse, nothing is left in
the fifo, and no packet has changed. -/
structure Exhausted (s : Pool) (d : Symbol) (s' : Pool) : Prop where
  none : ∀ x q, ¬ Reusable s d x q
  empty : s'.reusefifo d = []
  header : ∀ x, s'.pdpPacketHeader x = s.pdpPacketHeader x
  classList : s'.classList = s.classList
  malloc : s'.malloc = s.malloc
  mallocs : s'.mallocs = s.mallocs

theorem heap_save (s : Pool) (h : Int) (d : Symbol) :
    (pdpPacketSaveNolock h d s).malloc = s.malloc ∧
      (pdpPacketSaveNolock h d s).mallocs = s.mallocs := by
  unfold pdpPacketSaveNolock
  split <;> exact ⟨rfl, rfl⟩

theorem pdpPacketReuse_cases {d : Symbol} {s s' : Pool} {r : Int}
    (h : pdpPacketReuse (some d) s = .ok (r, s')) :
    (r = -1 ∧ Exhausted s d s') ∨ ∃ q, Reusable s d r q ∧ ∀ x, s'.pdpPacketHeader x =
      if x = r then some { q with users := 1 } else s.pdpPacketHeader x := by
  obtain ⟨hc, ⟨hr, hh⟩ | ⟨p, d', _, hp, hu, hd', hd, hm, hmem, hh⟩⟩ := pdpPacketReuse_spec h
  · left
    let I : Pool → Prop := fun t => (t.malloc = s.malloc ∧ t.mallocs = s.mallocs) ∧
      (∀ x, t.pdpPacketHeader x = s.pdpPacketHeader x) ∧
      ∀ x q, Reusable s d x q → x ∈ t.reusefifo d
    have hinv := reuseFrom_inv (I := I) (d := d)
      (fun t x l p hI hl hp hu => ⟨hI.1, hI.2.1, fun y q hy => by
        have hy' := hI.2.2 y q hy
        rw [hl] at hy'
        rw [reusefifo_setFifo, if_pos rfl]
        refine (List.mem_cons.mp hy').resolve_left fun he => ?_
        rw [hI.2.1, ← he, hy.2.1] at hp
        cases hp
        exact hu hy.2.2.1⟩)
      (fun t x l p d' hI hl hp hu hd hm => ⟨⟨(heap_save _ x d').1.trans hI.1.1, (heap_save _ x d').2.trans hI.1.2⟩,
        by simpa using hI.2.1, fun y q hy => by
          have hy' := hI.2.2 y q hy
          rw [hl] at hy'
          refine mem_reusefifo_save.mpr (Or.inl ?_)
          rw [reusefifo_setFifo, if_pos rfl]
          refine (List.mem_cons.mp hy').resolve_left fun he => ?_
          rw [hI.2.1, ← he, hy.2.1] at hp
          cases hp
          obtain ⟨_, _, _, e, hde, hme⟩ := hy
          cases hd.symm.trans hde
          rw [hm] at hme
          cases hme⟩)
      (s := s) ⟨⟨rfl, rfl⟩, fun _ => rfl, fun _ _ hy => hy.1⟩ rfl h
    rcases hinv with ⟨_, ⟨hheap, hhead, hall⟩, hempty⟩ | ⟨t, p, rest, hI, hf, rfl⟩
    · refine ⟨hr, fun x q hx => ?_, hempty, hhead, hc, hheap.1, hheap.2⟩
      have := hall x q hx
      rw [hempty] at this
      cases this
    · exact absurd hr (ne_neg_one_of_header hf.header)
  · cases hd
    exact Or.inr ⟨p, ⟨hmem, hp, hu, d', hd', hm⟩, hh⟩

/-! ## Looking at a header -/

section Ends

variable {α : Type} {Q : α → Pool → Prop} {s : Pool}

theorem ends_header {F : Fault → Prop} {h : Int} {k : Option Packet → PoolProg α}
    (hk : (k (s.pdpPacketHeader h)).Ends PoolOp.exec F Q s) :
    Prog.Ends PoolOp.exec F (.act (.header h) k) Q s :=
  Prog.ends_act (fun _ he => by cases he) fun _ _ he => by
    cases he
    exact hk

end Ends

/-- A packet that was unused is not one that is in use. -/
theorem Pool.HandsOut.ne_of_used {s s' : Pool} {t n : Nat} {r h : Int} {p : Packet}
    (ho : HandsOut s t n r s') (hp : s.pdpPacketHeader h = some p) (hu : p.users ≠ 0) : r ≠ h := by
  rintro rfl
  exact hu (ho.unused p hp)

/-- The classes of the base system. -/
def baseClasses : List PdpClass := [bitmapClass, imageClass]

end PureDataPacket
