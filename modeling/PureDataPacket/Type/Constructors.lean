/-
# `PureDataPacket.Type.Constructors` — what the packet constructors build

All constructors do the same thing with other values: they ask the pool for a
packet of a size computed from the dimensions, and fill in its header.
`Constructs` says so once; what is known of `pdp_packet_new` is then known of
every one of them.  `Built` is what its user can rely on afterwards, whatever
has been written into the data area since.
-/
import PureDataPacket.Type.Bitmap
import PureDataPacket.Kernel.PoolSpec

namespace PureDataPacket

open Pool

/-! ## `pdp_packet_new` -/

/-- A request whose size wraps below the size of a header. -/
def Overruns (n : Nat) : Prop := u32 (n + pdpHeaderSize) < pdpHeaderSize

theorem alloc_error {t n : Nat} {s : Pool} {e : Fault}
    (h : pdpPacketAllocNolock t n s = .error e) : e = .outOfBounds ∧ Overruns n := by
  simp only [pdpPacketAllocNolock] at h
  split at h
  · split at h
    · cases h
    · split at h
      · cases h
      · next hlo =>
          cases h
          exact ⟨rfl, Nat.lt_of_not_le hlo⟩
  · cases h

theorem createAt_error {t n slot : Nat} {s : Pool} {e : Fault}
    (h : createAt t n slot s = .error e) : e = .outOfBounds ∧ Overruns n := by
  unfold createAt at h
  split at h
  · next he =>
      cases h
      exact alloc_error he
  · cases h
  · cases h

theorem expand_error {s : Pool} {e : Fault} (h : pdpPoolExpandNolock s = .error e) :
    e = .nullPointer := by
  unfold pdpPoolExpandNolock at h
  split at h
  · cases h
    rfl
  · split at h
    · cases h
      rfl
    · cases h

/-- Only a pool that cannot grow and a size that wraps make `pdp_packet_new`
fault. -/
theorem pdpPacketNew_error {t n : Nat} {s : Pool} {e : Fault}
    (h : pdpPacketNew t n s = .error e) :
    e = .nullPointer ∨ e = .outOfBounds ∧ Overruns n := by
  unfold pdpPacketNew at h
  split at h
  · cases h
  · unfold pdpPacketCreate at h
    split at h
    · exact Or.inr (createAt_error h)
    · split at h
      · next he =>
          cases h
          exact Or.inl (expand_error he)
      · exact Or.inr (createAt_error h)

/-! ## A pool to build in

One packet is in use, one waits to be recycled, and there is an empty slot. -/

/-- A pool with `p` in use and `old`, of any type, unused. -/
def recycling (p : Packet) (old : DataArea) : Pool where
  pdpPool := [some p, some { Packet.fresh 0 old with users := 0 }, none]
  reusefifo := fun _ => []
  classList := []
  malloc := fun _ => some fun _ => 0
  mallocs := 0
  size_pos := Nat.succ_pos 2

theorem header_recycling (p : Packet) (old : DataArea) :
    (recycling p old).pdpPacketHeader 0 = some p := rfl

theorem reapable_of_users {p : Packet} (hp : 0 < p.users) (n : Nat) : reapable n p = false := by
  simp [reapable, Nat.pos_iff_ne_zero.mp hp]

theorem reapable_old (n : Nat) (old : DataArea) :
    reapable n { Packet.fresh 0 old with users := 0 } =
      decide (old.size + pdpHeaderSize = u32 (n + pdpHeaderSize)) := by
  simp only [reapable, Packet.fresh, Packet.size, Packet.hasCleanup, decide_true, Bool.true_and,
    Bool.not_false, Bool.and_true]
  rfl

theorem pdpPacketNew_recycling {p : Packet} (hp : 0 < p.users) {old : DataArea} {t n : Nat}
    (hn : n + pdpHeaderSize < 2 ^ 31) (hold : old.size = n) :
    pdpPacketNew t n (recycling p old) =
      .ok (1, (recycling p old).put 1 (some (.fresh t old))) := by
  have hsize : old.size + pdpHeaderSize = u32 (n + pdpHeaderSize) := by
    rw [u32_eq_self (by omega), hold]
  have hfind : findPacketFrom (reapable n) (recycling p old).pdpPool 0 =
      some (1, { Packet.fresh 0 old with users := 0 }) := by
    simp only [recycling, findPacketFrom, reapable_of_users hp, reapable_old, hsize, decide_true,
      if_true, Bool.false_eq_true, if_false]
  simp only [pdpPacketNew, hfind]
  rfl

theorem pdpPacketNew_recycling_ne {p : Packet} (hp : 0 < p.users) {old : DataArea} {t n : Nat}
    (hne : old.size + pdpHeaderSize ≠ u32 (n + pdpHeaderSize)) :
    pdpPacketNew t n (recycling p old) = createAt t n 2 (recycling p old) := by
  have hfind : findPacketFrom (reapable n) (recycling p old).pdpPool 0 = none := by
    simp only [recycling, findPacketFrom, reapable_of_users hp, reapable_old, hne, decide_false,
      Bool.false_eq_true, if_false]
  simp only [pdpPacketNew, hfind]
  rfl

theorem pdpPacketNew_refused {p : Packet} (hp : 0 < p.users) {old : DataArea} {t n : Nat}
    (hn : 2 ^ 31 ≤ u32 (n + pdpHeaderSize)) :
    pdpPacketNew t n (recycling p old) = .ok (-1, (recycling p old).tick) := by
  have := old.size_lt
  rw [pdpPacketNew_recycling_ne hp (by simp only [DataArea.size]; omega)]
  simp only [createAt, pdpPacketAllocNolock, dif_neg (Nat.not_lt.mpr hn)]

theorem pdpPacketNew_overruns {p : Packet} (hp : 0 < p.users) {old : DataArea} {t n : Nat}
    (hn : Overruns n) : pdpPacketNew t n (recycling p old) = .error .outOfBounds := by
  have hn' : u32 (n + pdpHeaderSize) < pdpHeaderSize := hn
  rw [pdpPacketNew_recycling_ne hp (by omega)]
  have hlt : u32 (n + pdpHeaderSize) < 2 ^ 31 := Nat.lt_trans hn (by decide)
  simp only [createAt, pdpPacketAllocNolock, dif_pos hlt, dif_neg (Nat.not_le.mpr hn'), recycling]

/-! ## The constructors -/

/-- `make` asks for `n` bytes of type `t` and gives what it gets the header `m`. -/
structure Constructs (make : PoolProg Int) (t n : Nat) (m : Meta) : Prop where
  error : ∀ {s e}, pdpPacketNew t n s = .error e → make.run s = .error e
  fail : ∀ {s s₁}, pdpPacketNew t n s = .ok (-1, s₁) → make.run s = .ok (-1, s₁)
  ok : ∀ {s s₁ r data}, pdpPacketNew t n s = .ok (r, s₁) →
    s₁.pdpPacketHeader r = some (.fresh t data) →
      ∃ s₂, make.run s = .ok (r, s₂) ∧ Puts s₁ r (some ⟨m, 1, data⟩) s₂

/-- The header that `construct` starts from. -/
def freshMeta (t : Nat) : Meta := ⟨t, none, 0, none, ⟨0, 0, 0, 0, 0⟩⟩

theorem writeHeader_eq {s : Pool} {r : Int} {m : Meta} {p : Packet}
    (hp : s.pdpPacketHeader r = some p) :
    PoolOp.exec (.writeHeader r m) s = .ok ((), s.put r (some { p with toMeta := m })) := by
  simp only [PoolOp.exec, writeHeader, hp, PoolOp.effect]

theorem constructs_construct (t n : Nat) (init : Meta → Meta) :
    Constructs (construct t n init) t n (init (freshMeta t)) where
  error {s e} h := by
    have hnew : PoolOp.exec (.new t n) s = .error e := h
    show Prog.run PoolOp.exec (.act (.new t n) _) s = _
    rw [Prog.run_act, hnew]
  fail {s s₁} h := by
    have hnew : PoolOp.exec (.new t n) s = .ok (-1, s₁) := h
    have hheader : PoolOp.exec (.header (-1)) s₁ = .ok (none, s₁) := by
      rw [PoolOp.exec, header_neg_one]
    exact (Prog.run_act_ok hnew).trans (Prog.run_act_ok hheader)
  ok {s s₁ r data} h hr := by
    have hnew : PoolOp.exec (.new t n) s = .ok (r, s₁) := h
    have hheader : PoolOp.exec (.header r) s₁ = .ok (some (.fresh t data), s₁) := by
      rw [PoolOp.exec, hr]
    refine ⟨s₁.put r (some ⟨init (freshMeta t), 1, data⟩), ?_, puts_of_header hr _⟩
    exact ((Prog.run_act_ok hnew).trans (Prog.run_act_ok hheader)).trans
      (Prog.run_act_ok (writeHeader_eq hr))

theorem constructs_i420 (w h : Nat) : Constructs (pdpPacketNewBitmapI420 w h) pdpBitmap
    (bitmapSizeYv12 w h) (i420Header (bitmapHeader pdpBitmapYV12 w h (freshMeta pdpBitmap))) where
  error {s e} hn := by
    have hmake := (constructs_construct pdpBitmap (bitmapSizeYv12 w h)
      (bitmapHeader pdpBitmapYV12 w h)).error hn
    show Prog.run PoolOp.exec ((pdpPacketNewBitmapYv12 w h).bind _) s = _
    rw [Prog.run_bind, show Prog.run PoolOp.exec (pdpPacketNewBitmapYv12 w h) s = _ from hmake]
  fail {s s₁} hn := by
    have hmake := (constructs_construct pdpBitmap (bitmapSizeYv12 w h)
      (bitmapHeader pdpBitmapYV12 w h)).fail hn
    exact Prog.run_bind_ok hmake
  ok {s s₁ r data} hn hr := by
    obtain ⟨s₂, hmake, hputs⟩ := (constructs_construct pdpBitmap (bitmapSizeYv12 w h)
      (bitmapHeader pdpBitmapYV12 w h)).ok hn hr
    have hheader : PoolOp.exec (.header r) s₂ = .ok (s₂.pdpPacketHeader r, s₂) := rfl
    rw [hputs.self] at hheader
    have hne : r ≠ -1 := by
      rintro rfl
      rw [header_neg_one] at hr
      cases hr
    refine ⟨_, ?_, hputs.trans (puts_of_header hputs.self _)⟩
    refine (Prog.run_bind_ok hmake).trans ?_
    rw [if_neg hne]
    exact (Prog.run_act_ok hheader).trans (Prog.run_act_ok (writeHeader_eq hputs.self))

/-- The types of packets that the image and bitmap constructors make. -/
inductive PacketKind where
  | imageYCrCb | imageGrey | imageMulti
  | bitmapYv12 | bitmapI420 | bitmapGrey | bitmapRgb | bitmapRgba
deriving DecidableEq

namespace PacketKind

/-- The constructor.  Only one of them takes a depth. -/
def new (w h d : Nat) : PacketKind → PoolProg Int
  | imageYCrCb => pdpPacketNewImageYCrCb w h
  | imageGrey => pdpPacketNewImageGrey w h
  | imageMulti => pdpPacketNewImageMchp w h d
  | bitmapYv12 => pdpPacketNewBitmapYv12 w h
  | bitmapI420 => pdpPacketNewBitmapI420 w h
  | bitmapGrey => pdpPacketNewBitmapGrey w h
  | bitmapRgb => pdpPacketNewBitmapRgb w h
  | bitmapRgba => pdpPacketNewBitmapRgba w h

def type : PacketKind → Nat
  | imageYCrCb | imageGrey | imageMulti => pdpImage
  | bitmapYv12 | bitmapI420 | bitmapGrey | bitmapRgb | bitmapRgba => pdpBitmap

def encoding : PacketKind → Nat
  | imageYCrCb => pdpImageYV12
  | imageGrey => pdpImageGREY
  | imageMulti => pdpImageMCHP
  | bitmapYv12 => pdpBitmapYV12
  | bitmapI420 => pdpBitmapI420
  | bitmapGrey => pdpBitmapGREY
  | bitmapRgb => pdpBitmapRGB
  | bitmapRgba => pdpBitmapRGBA

/-- The number of bytes asked for. -/
def dataSize (w h d : Nat) : PacketKind → Nat
  | imageYCrCb => imageSizeYCrCb w h
  | imageGrey => imageSizeGrey w h
  | imageMulti => imageSizeMchp w h d
  | bitmapYv12 | bitmapI420 => bitmapSizeYv12 w h
  | bitmapGrey => bitmapSizePacked 1 w h
  | bitmapRgb => bitmapSizePacked 3 w h
  | bitmapRgba => bitmapSizePacked 4 w h

/-- The header that is filled in. -/
def header (w h d : Nat) : PacketKind → Meta
  | imageYCrCb => imageHeader pdpImageYV12 w h none (freshMeta pdpImage)
  | imageGrey => imageHeader pdpImageGREY w h none (freshMeta pdpImage)
  | imageMulti => imageHeader pdpImageMCHP w h (some d) (freshMeta pdpImage)
  | bitmapYv12 => bitmapHeader pdpBitmapYV12 w h (freshMeta pdpBitmap)
  | bitmapI420 => i420Header (bitmapHeader pdpBitmapYV12 w h (freshMeta pdpBitmap))
  | bitmapGrey => bitmapHeader pdpBitmapGREY w h (freshMeta pdpBitmap)
  | bitmapRgb => bitmapHeader pdpBitmapRGB w h (freshMeta pdpBitmap)
  | bitmapRgba => bitmapHeader pdpBitmapRGBA w h (freshMeta pdpBitmap)

/-- The two words of a description. -/
def words : PacketKind → Symbol × Symbol
  | imageYCrCb => ("image".toList, "YCrCb".toList)
  | imageGrey => ("image".toList, "grey".toList)
  | imageMulti => ("image".toList, "multi".toList)
  | bitmapYv12 => ("bitmap".toList, "yv12".toList)
  | bitmapI420 => ("bitmap".toList, "i420".toList)
  | bitmapGrey => ("bitmap".toList, "grey".toList)
  | bitmapRgb => ("bitmap".toList, "rgb".toList)
  | bitmapRgba => ("bitmap".toList, "rgba".toList)

/-- What is behind width and height in a description. -/
def depthSuffix (d : Nat) : PacketKind → List Char
  | imageMulti => 'x' :: printDim d
  | _ => []

def dims (w h d : Nat) (k : PacketKind) : List Char :=
  printDim w ++ 'x' :: printDim h ++ k.depthSuffix d

def description (w h d : Nat) (k : PacketKind) : Symbol :=
  k.words.1 ++ '/' :: k.words.2 ++ '/' :: k.dims w h d

theorem constructs (w h d : Nat) (k : PacketKind) :
    Constructs (k.new w h d) k.type (k.dataSize w h d) (k.header w h d) := by
  cases k with
  | bitmapI420 => exact constructs_i420 w h
  | _ => exact constructs_construct _ _ _

theorem dataSize_lt (w h d : Nat) (k : PacketKind) : k.dataSize w h d < 2 ^ 32 := by
  cases k <;> exact u32_lt _

theorem append_word (a b c : List Char) (x : Char) : a ++ x :: b ++ c = a ++ x :: (b ++ c) := by
  rw [List.append_assoc, List.cons_append]

theorem desc_imageHeader {e w h : Nat} {n suffix : List Char}
    (he : imageEncodingName e = some ('/' :: n)) {d : Option Nat}
    (hs : (if e = pdpImageMCHP then 'x' :: printDim (d.getD 0) else []) = suffix) :
    (imageHeader e w h d (freshMeta pdpImage)).desc =
      some ("image".toList ++ '/' :: n ++ '/' :: (printDim w ++ 'x' :: printDim h ++ suffix)) := by
  unfold imageHeader pdpPacketImageGetDescription
  simp only [freshMeta, if_true, he, hs]
  rw [List.append_assoc (_ ++ '/' :: printDim _), append_word, List.append_assoc (printDim w)]

theorem desc_bitmap (e : Nat) {w h : Nat} {n : List Char}
    (he : bitmapEncodingName e = some ('/' :: n)) {m : Meta} (hd : m.desc = none) (ht : m.type = pdpBitmap) (hi : m.info.encoding = e)
    (hw : m.info.width = w) (hh : m.info.height = h) :
    some (pdpPacketBitmapGetDescription (some m)) =
      some ("bitmap".toList ++ '/' :: n ++ '/' :: (printDim w ++ 'x' :: printDim h ++ [])) := by
  unfold pdpPacketBitmapGetDescription
  simp only [hd, ht, hi, hw, hh, if_true, he]
  rw [append_word, List.append_nil]

theorem desc_header (w h d : Nat) (k : PacketKind) :
    (k.header w h d).desc = some (k.description w h d) := by
  cases k with
  | imageYCrCb => exact desc_imageHeader (by decide) (if_neg (by decide))
  | imageGrey => exact desc_imageHeader (by decide) (if_neg (by decide))
  | imageMulti => exact desc_imageHeader (by decide) (if_pos rfl)
  | bitmapYv12 => exact desc_bitmap pdpBitmapYV12 (by decide) rfl rfl rfl rfl rfl
  | bitmapI420 => exact desc_bitmap pdpBitmapI420 (by decide) rfl rfl rfl rfl rfl
  | bitmapGrey => exact desc_bitmap pdpBitmapGREY (by decide) rfl rfl rfl rfl rfl
  | bitmapRgb => exact desc_bitmap pdpBitmapRGB (by decide) rfl rfl rfl rfl rfl
  | bitmapRgba => exact desc_bitmap pdpBitmapRGBA (by decide) rfl rfl rfl rfl rfl

end PacketKind

/-- A packet as a constructor has built it; the data may be anything. -/
structure Built (k : PacketKind) (w h d : Nat) (p : Packet) : Prop where
  width_lt : w < 2 ^ 32
  height_lt : h < 2 ^ 32
  depth_lt : d < 2 ^ 32
  type : p.type = k.type
  encoding : p.info.encoding = k.encoding
  width : p.info.width = w
  height : p.info.height = h
  depth : k = .imageMulti → p.info.depth = d
  desc : p.desc = some (k.description w h d)
  size : p.data.size = k.dataSize w h d

/-- What `pdp_packet_new` hands out has the size it was asked for. -/
theorem size_of_handsOut {s s' : Pool} {t n : Nat} {r : Int} (hn : n < 2 ^ 32)
    (h : HandsOut s t n r s') : n + pdpHeaderSize < 2 ^ 31 ∧
      ∃ data : DataArea, data.size = n ∧ Puts s r (some (.fresh t data)) s' := by
  obtain ⟨data, hsize, hputs⟩ := h.puts
  have hlt := data.size_lt
  have hn' : u32 (n + pdpHeaderSize) = n + pdpHeaderSize ∨
      u32 (n + pdpHeaderSize) = n + pdpHeaderSize - 2 ^ 32 := by
    simp only [u32, pdpHeaderSize]
    omega
  simp only [DataArea.size, pdpHeaderSize] at *
  refine ⟨by omega, data, by omega, hputs⟩

theorem built_header {k : PacketKind} {w h d : Nat} {data : DataArea} (hw : w < 2 ^ 32)
    (hh : h < 2 ^ 32) (hd : d < 2 ^ 32) (hsize : data.size = k.dataSize w h d) :
    Built k w h d ⟨k.header w h d, 1, data⟩ where
  width_lt := hw
  height_lt := hh
  depth_lt := hd
  type := by cases k <;> rfl
  encoding := by cases k <;> rfl
  width := by cases k <;> rfl
  height := by cases k <;> rfl
  depth := by
    rintro rfl
    rfl
  desc := PacketKind.desc_header w h d k
  size := hsize

/-! ## Source patterns -/

/-- The words of a text: the first one ends at the first `/`. -/
theorem typeToListFrom_word : ∀ (word rest last : List Char), '/' ∉ word →
    typeToListFrom (word ++ '/' :: rest) last = (last ++ word) :: typeToListFrom rest [] := by
  intro word
  induction word with
  | nil =>
      intro rest last _
      rw [List.append_nil]
      rfl
  | cons c word ih =>
      intro rest last hword
      have hc : c ≠ '/' := fun h => hword (h ▸ List.mem_cons_self)
      have hrest : '/' ∉ word := fun h => hword (List.mem_cons_of_mem c h)
      rw [List.cons_append, typeToListFrom, if_neg hc, ih rest _ hrest, List.append_assoc]
      rfl

theorem PacketKind.words_plain (k : PacketKind) : '/' ∉ k.words.1 ∧ '/' ∉ k.words.2 ∧
    k.words.1 ≠ symWildcard ∧ k.words.2 ≠ symWildcard := by
  cases k with
  | imageYCrCb => decide
  | imageGrey => decide
  | imageMulti => decide
  | bitmapYv12 => decide
  | bitmapI420 => decide
  | bitmapGrey => decide
  | bitmapRgb => decide
  | bitmapRgba => decide

theorem PacketKind.words_inj {k k' : PacketKind} (h : k.words = k'.words) : k = k' := by
  revert h
  cases k <;> cases k' <;> decide

theorem pdpTypeToList_description (w h d : Nat) (k : PacketKind) :
    pdpTypeToList (k.description w h d) =
      k.words.1 :: k.words.2 :: typeToListFrom (k.dims w h d) [] := by
  obtain ⟨h1, h2, _, _⟩ := k.words_plain
  unfold pdpTypeToList PacketKind.description
  rw [List.append_assoc, List.cons_append, typeToListFrom_word _ _ _ h1,
    typeToListFrom_word _ _ _ h2]
  rfl

/-- A source pattern with two words is that of one kind of packet. -/
theorem kind_of_match {w h d : Nat} {k k' : PacketKind} {pattern : Symbol}
    (hpattern : pdpTypeToList pattern = [k'.words.1, k'.words.2, symWildcard])
    (hmatch : pdpTypeDescriptionMatch (k.description w h d) pattern = true) : k = k' := by
  obtain ⟨_, _, hk1, hk2⟩ := k.words_plain
  obtain ⟨_, _, hk1', hk2'⟩ := k'.words_plain
  have hlist := pdpTypeToList_description w h d k
  apply PacketKind.words_inj
  unfold pdpTypeDescriptionMatch at hmatch
  split at hmatch
  · next heq =>
      rw [heq, hpattern] at hlist
      obtain ⟨h1, hrest⟩ := List.cons.inj hlist
      obtain ⟨h2, _⟩ := List.cons.inj hrest
      exact Prod.ext h1.symm h2.symm
  · rw [hlist, hpattern] at hmatch
    by_cases h1 : k.words.1 = k'.words.1
    · by_cases h2 : k.words.2 = k'.words.2
      · exact Prod.ext h1 h2
      · rw [compareWords, if_neg hk1, if_neg hk1', if_neg (not_not.mpr h1), compareWords,
          if_neg hk2, if_neg hk2', if_pos h2] at hmatch
        cases hmatch
    · rw [compareWords, if_neg hk1, if_neg hk1', if_pos h1] at hmatch
      cases hmatch

end PureDataPacket
