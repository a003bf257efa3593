/-
# `PureDataPacket.Matrix.Views` — do the views point home?

The four views of a matrix packet are raw pointers in its header.  Everything
that computes with matrices writes through them, so a matrix packet owns its
data only as long as its views point there: `OwnViews`.

`pdp_packet_new_matrix` aims them, and a packet that comes back from the reuse
fifo still has them.  The last resort of `pdp_packet_clone_rw` copies the header
of the source, views included, and its result computes in the data of another
packet.  The factory of matrices could prevent that and makes nothing.

A run consists of calls on matrix packets and of whatever happens elsewhere,
where no matrix packet is made.  If every matrix that is constructed fits, and
every clone is served by the fifo or not at all, the views always point home,
and what is written through the views of a clone does not reach its source.

| | |
| :-- | :-- |
| `OwnViews` | what is reached is in the packet |
| `Aimed` | every matrix packet has its own views and the description of a matrix |
| `storeThrough_spec` | a store through the views of a packet changes its data |
| `ClonedByReuse` | a clone comes from the fifo, or not at all |
| `MatrixReaches` | the states in question |
| `ViewsAimed` | what should be |
-/
import PureDataPacket.Matrix.CopyRw
import PureDataPacket.Matrix.Implied

namespace PureDataPacket

open Pool

/-! ## The class of a description -/

/-- The classes of a system with all modules, the last one registered first. -/
def systemClasses : List PdpClass := contextClass :: textureClass :: matrixClass :: baseClasses

theorem typeToListFrom_ne_nil (l last : List Char) : typeToListFrom l last ≠ [] := by
  induction l generalizing last with
  | nil => simp [typeToListFrom]
  | cons c l ih =>
      unfold typeToListFrom
      split
      · simp
      · exact ih _

/-- Descriptions that differ in their first words do not match. -/
theorem not_match_of_heads {d pattern a b : Symbol} {as bs : List Symbol}
    (hd : pdpTypeToList d = a :: as) (hp : pdpTypeToList pattern = b :: bs)
    (ha : a ≠ symWildcard) (hb : b ≠ symWildcard) (hne : a ≠ b) :
    pdpTypeDescriptionMatch d pattern = false := by
  unfold pdpTypeDescriptionMatch
  have hdp : d ≠ pattern := by
    rintro rfl
    rw [hd] at hp
    exact hne (List.cons.inj hp).1
  rw [if_neg hdp, hd, hp, compareWords, if_neg ha, if_neg hb, if_pos hne]

theorem pdpTypeToList_words {m a b : List Char} (dims : List Char) (hm : '/' ∉ m)
    (ha : '/' ∉ a) (hb : '/' ∉ b) : ∃ x l,
    pdpTypeToList (m ++ '/' :: (a ++ '/' :: (b ++ '/' :: dims))) = m :: a :: b :: x :: l := by
  obtain ⟨x, l, hx⟩ := List.exists_cons_of_ne_nil (typeToListFrom_ne_nil dims [])
  refine ⟨x, l, ?_⟩
  unfold pdpTypeToList
  rw [typeToListFrom_word _ _ _ hm, typeToListFrom_word _ _ _ ha, typeToListFrom_word _ _ _ hb, hx]
  rfl

theorem words_of_typeName {type : Nat} {name : List Char} (h : matrixTypeName type = some name) :
    ∃ a b, name = '/' :: (a ++ '/' :: b) ∧ '/' ∉ a ∧ '/' ∉ b := by
  unfold matrixTypeName at h
  split at h
  · cases h
    exact ⟨"float".toList, "real".toList, rfl, by decide, by decide⟩
  · split at h
    · cases h
      exact ⟨"float".toList, "complex".toList, rfl, by decide, by decide⟩
    · split at h
      · cases h
        exact ⟨"double".toList, "real".toList, rfl, by decide, by decide⟩
      · split at h
        · cases h
          exact ⟨"double".toList, "complex".toList, rfl, by decide, by decide⟩
        · cases h

theorem matrixDescription_eq {type : Nat} {name : List Char} (rows columns : Nat)
    (h : matrixTypeName type = some name) : ∃ r c,
    matrixDescription rows columns type = "matrix".toList ++ name ++ '/' :: r ++ 'x' :: c := by
  refine ⟨printDim rows, printDim columns, ?_⟩
  unfold matrixDescription
  rw [h]

/-- Four words, the first of which is `matrix`; there may be more behind them. -/
theorem pdpTypeToList_matrix {type : Nat} (rows columns : Nat) (ht : matrixTypeName type ≠ none) :
    ∃ a b x l, pdpTypeToList (matrixDescription rows columns type) =
      "matrix".toList :: a :: b :: x :: l := by
  obtain ⟨name, hname⟩ := Option.ne_none_iff_exists'.mp ht
  obtain ⟨a, b, rfl, ha, hb⟩ := words_of_typeName hname
  obtain ⟨r, c, htext⟩ := matrixDescription_eq rows columns hname
  have hassoc : "matrix".toList ++ ('/' :: (a ++ '/' :: b)) ++ '/' :: r ++ 'x' :: c =
      "matrix".toList ++ '/' :: (a ++ '/' :: (b ++ '/' :: (r ++ 'x' :: c))) := by
    simp only [List.append_assoc, List.cons_append]
  have hm : '/' ∉ "matrix".toList := by decide
  obtain ⟨x, l, hwords⟩ := pdpTypeToList_words (r ++ 'x' :: c) hm ha hb
  exact ⟨a, b, x, l, by rw [htext, hassoc, hwords]⟩

theorem match_matrix {type : Nat} (rows columns : Nat) (ht : matrixTypeName type ≠ none) :
    pdpTypeDescriptionMatch (matrixDescription rows columns type) "matrix/*/*/*".toList = true := by
  obtain ⟨a, b, x, l, hwords⟩ := pdpTypeToList_matrix rows columns ht
  have hpattern : pdpTypeToList "matrix/*/*/*".toList =
      ["matrix".toList, symWildcard, symWildcard, symWildcard] := by decide
  have hrest : ∀ (d : Symbol) (ad ap : List Symbol),
      compareWords (d :: ad) (symWildcard :: ap) = compareWords ad ap := by
    intro d ad ap
    rw [compareWords]
    split <;> simp
  unfold pdpTypeDescriptionMatch
  split
  · rfl
  · rw [hwords, hpattern, compareWords, if_neg (by decide), if_neg (by decide), if_neg (by simp),
      hrest, hrest, hrest]
    cases l with
    | nil => rfl
    | cons y l => simp [compareWords]

/-- The factory method for a matrix is that of the matrix class. -/
theorem served_matrix {s : Pool} {type : Nat} (hs : s.classList = systemClasses)
    (rows columns : Nat) (ht : matrixTypeName type ≠ none) :
    OfMatrixClass s (matrixDescription rows columns type) := by
  obtain ⟨a, b, x, l, hwords⟩ := pdpTypeToList_matrix rows columns ht
  have hwords₁ : pdpTypeToList "3Dcontext/*".toList = ["3Dcontext".toList, symWildcard] := by decide
  have hwords₂ : pdpTypeToList "texture/*/*".toList =
      ["texture".toList, symWildcard, symWildcard] := by decide
  have hcontext : contextClass.handles (matrixDescription rows columns type) = false :=
    not_match_of_heads hwords hwords₁ (by decide) (by decide) (by decide)
  have htexture : textureClass.handles (matrixDescription rows columns type) = false :=
    not_match_of_heads hwords hwords₂ (by decide) (by decide) (by decide)
  have hmatrix : matrixClass.handles (matrixDescription rows columns type) = true :=
    match_matrix rows columns ht
  unfold OfMatrixClass
  rw [hs, systemClasses, List.find?_cons_of_neg (by simp [hcontext]),
    List.find?_cons_of_neg (by simp [htexture])]
  exact List.find?_cons_of_pos hmatrix

/-! ## Views that point home -/

/-- All that may be reached through the views of `m` is in the data of packet
`r`, which has `size` bytes. -/
structure OwnViews (r : Int) (m : TMatrix) (size : Nat) : Prop where
  packet : ∀ v, (m.pointer v).packet = r
  blocks : m.vector.block = r ∧ m.matrix.block = r
  inside : ∀ v, 0 ≤ (m.pointer v).offset ∧ (m.pointer v).offset.toNat + m.extent v ≤ size

/-- Every matrix packet has its own views. -/
def OwnsViews (w : MatrixPool) : Prop :=
  ∀ h p, w.pool.pdpPacketHeader h = some p → p.type = pdpMatrix →
    OwnViews h (w.subheader h) p.data.size

theorem sizeT_natCast {n : Nat} (h : n < 2 ^ 64) : sizeT (n : Int) = n := by
  unfold sizeT
  omega

/-- The subheader of a matrix whose two `int`s are right. -/
theorem ownViews_initial {r : Int} {rows columns type size n v : Nat}
    (hb : matrixBytesize rows columns type = n) (hp : permsize rows columns = v)
    (hn : n = rows * columns * elementSize type) (hpos : 0 < n) (hsize : n + 8 * v ≤ size)
    (hlt : size < 2 ^ 31) : OwnViews r (initialSubheader r rows columns type) size := by
  unfold initialSubheader
  rw [hb, hp]
  have hrc : 0 < rows * columns := by
    rcases Nat.eq_zero_or_pos (rows * columns) with h | h
    · rw [hn, h, Nat.zero_mul] at hpos
      exact absurd hpos (Nat.lt_irrefl 0)
    · exact h
  have hvector : (if columns = 1 then rows else columns) ≤ rows * columns := by
    split
    · next h => exact Nat.le_of_eq (by rw [h, Nat.mul_one])
    · exact Nat.le_mul_of_pos_left _ (Nat.pos_of_mul_pos_right hrc)
  refine ⟨fun x => by cases x <;> rfl, ⟨rfl, rfl⟩, fun x => ?_⟩
  cases x with
  | block =>
      refine ⟨Int.le_refl 0, ?_⟩
      simp only [TMatrix.pointer, TMatrix.extent, sizeT_natCast (show n < 2 ^ 64 by omega)]
      show 0 + n ≤ size
      omega
  | vector =>
      refine ⟨Int.le_refl 0, ?_⟩
      show 0 + (if columns = 1 then rows else columns) * 1 * elementSize type ≤ size
      have := Nat.mul_le_mul_right (elementSize type) hvector
      rw [Nat.mul_one]
      omega
  | matrix =>
      refine ⟨Int.le_refl 0, ?_⟩
      show 0 + rows * columns * elementSize type ≤ size
      omega
  | perm =>
      refine ⟨Int.natCast_nonneg n, ?_⟩
      simp only [TMatrix.pointer, TMatrix.extent, sizeT_natCast (show v < 2 ^ 64 by omega),
        Int.toNat_natCast]
      omega

theorem elementSize_eq_zero {type : Nat} (h : matrixTypeName type = none) :
    elementSize type = 0 := by
  unfold matrixTypeName at h
  unfold elementSize
  split at h
  · cases h
  · next h1 =>
      split at h
      · cases h
      · next h2 =>
          split at h
          · cases h
          · next h3 =>
              split at h
              · cases h
              · next h4 => rw [if_neg h1, if_neg h2, if_neg h3, if_neg h4]

/-- A matrix that was constructed and fits has its own views. -/
theorem ownViews_made {w w' : MatrixPool} {rows columns type : Nat} {r : Int}
    (hm : MatrixMade w rows columns type r w')
    (hs : (Construction.matrix rows columns type).Sized) :
    matrixTypeName type ≠ none ∧ ∃ data : DataArea,
      Puts w.pool r (some ⟨initialHeader (Packet.fresh pdpMatrix data).toMeta
        (initialSubheader r rows columns type), 1, data⟩) w'.pool ∧
      OwnViews r (initialSubheader r rows columns type) data.size := by
  obtain ⟨data, hdata, _, hputs⟩ := hm.puts
  have hsize : data.size = matrixBytes rows columns type :=
    size_of_sized (request_of_sized hs fun h => hm.bytes ((refusedAtOnce_iff _ _ _).mp h)) hdata
  have hlt := data.size_lt
  have hfit : matrixBytes rows columns type < 2 ^ 31 := by
    rw [← hsize]
    simp only [DataArea.size]
    omega
  have hsum : rows * columns * elementSize type + 8 * pdpMatrixPdataVectorSize rows columns =
      matrixBytes rows columns type := rfl
  obtain ⟨hb, hp⟩ := ints_of_fit hfit
  have hpos : 0 < rows * columns * elementSize type := by
    refine Nat.pos_of_ne_zero fun h0 => hm.bytes ?_
    rw [hb, h0]
    rfl
  refine ⟨fun hname => ?_, data, hputs, ?_⟩
  · rw [elementSize_eq_zero hname, Nat.mul_zero] at hpos
    exact Nat.lt_irrefl 0 hpos
  · exact ownViews_initial hb hp rfl hpos (by omega) (by omega)

/-! ## Steps that make no matrix packet -/

/-- Every matrix packet of `w'` was one in `w`, with the same header and the
same number of bytes. -/
structure Elsewhere (w w' : MatrixPool) : Prop where
  kept : ∀ h p', w'.pool.pdpPacketHeader h = some p' → p'.type = pdpMatrix →
    ∃ p, w.pool.pdpPacketHeader h = some p ∧ p.toMeta = p'.toMeta ∧
      p.data.size = p'.data.size ∧ w'.subheader h = w.subheader h
  classList : w'.pool.classList = w.pool.classList

theorem Elsewhere.refl (w : MatrixPool) : Elsewhere w w where
  kept _ p' hp' _ := ⟨p', hp', rfl, rfl, rfl⟩
  classList := rfl

theorem Elsewhere.trans {w w' w'' : MatrixPool} (h₁ : Elsewhere w w') (h₂ : Elsewhere w' w'') :
    Elsewhere w w'' where
  kept h p'' hp'' ht := by
    obtain ⟨p', hp', hm', hs', hsub'⟩ := h₂.kept h p'' hp'' ht
    have ht' : p'.type = pdpMatrix := by
      rw [show p'.type = p''.type from congrArg Meta.type hm', ht]
    obtain ⟨p, hp, hm, hs, hsub⟩ := h₁.kept h p' hp' ht'
    exact ⟨p, hp, hm.trans hm', hs.trans hs', hsub'.trans hsub⟩
  classList := h₂.classList.trans h₁.classList

theorem Untouched.elsewhere {w w' : MatrixPool} (h : Untouched w w') : Elsewhere w w' where
  kept x p' hp' _ := ⟨p', (h.header x).symm.trans hp', rfl, rfl, by rw [h.subheader]⟩
  classList := h.classList

theorem Revived.elsewhere {w w' : MatrixPool} {d : Symbol} {r : Int}
    (h : Revived w.pool d r w'.pool) (hsub : w'.subheader = w.subheader) : Elsewhere w w' where
  kept x p' hp' _ := by
    obtain ⟨q, hq, hh⟩ := h.reusable
    rw [hh] at hp'
    split at hp'
    · next hx =>
        cases hp'
        exact ⟨q, hx ▸ hq.2.1, rfl, rfl, by rw [hsub]⟩
    · exact ⟨p', hp', rfl, rfl, by rw [hsub]⟩
  classList := h.classList

theorem Rewrites.elsewhere {w w' : MatrixPool} {x : Int} (h : Rewrites w.pool x w'.pool)
    (hsub : w'.subheader = w.subheader) : Elsewhere w w' where
  kept y p' hp' _ := by
    cases hy : w.pool.pdpPacketHeader y with
    | none =>
        have hnone : w'.pool.pdpPacketHeader y = none := by
          by_cases hx : y = x
          · subst hx
            exact h.empty hy
          · exact (h.other y hx).trans hy
        cases hnone.symm.trans hp'
    | some p =>
        obtain ⟨data, hdata, hq⟩ := h.keeps hy
        cases hq.symm.trans hp'
        exact ⟨p, rfl, rfl, hdata.symm, by rw [hsub]⟩
  classList := h.classList

theorem markUnused_none {w : MatrixPool} {r : Int} (hr : w.pool.pdpPacketHeader r = none) :
    w.markUnused r = w := by
  unfold MatrixPool.markUnused
  rw [pdpPacketMarkUnused_none hr]

theorem header_markUnused_ne {w : MatrixPool} {r x : Int} (hx : x ≠ r) :
    (w.markUnused r).pool.pdpPacketHeader x = w.pool.pdpPacketHeader x := by
  cases hr : w.pool.pdpPacketHeader r with
  | none => rw [markUnused_none hr]
  | some p => exact (header_markUnused hr x).trans (if_neg hx)

theorem elsewhere_markUnused (w : MatrixPool) (r : Int) : Elsewhere w (w.markUnused r) := by
  cases hr : w.pool.pdpPacketHeader r with
  | none =>
      rw [markUnused_none hr]
      exact .refl w
  | some p =>
      refine ⟨fun x p' hp' _ => ?_, ?_⟩
      · rw [show (w.markUnused r).pool.pdpPacketHeader x = _ from header_markUnused hr x] at hp'
        split at hp'
        · next hx =>
            cases hp'
            exact ⟨p, hx ▸ hr, rfl, rfl, rfl⟩
        · exact ⟨p', hp', rfl, rfl, rfl⟩
      · show (pdpPacketMarkUnused r w.pool).classList = _
        rcases pdpPacketMarkUnused_eq hr with ⟨he, _⟩ | ⟨d, _, _, he⟩
        · rw [he]
          rfl
        · rw [he, classList_save]
          rfl

/-! ## The invariant -/

/-- Every matrix packet has its own views and the description of a matrix. -/
structure Aimed (w : MatrixPool) : Prop where
  views : OwnsViews w
  desc : ∀ h p, w.pool.pdpPacketHeader h = some p → p.type = pdpMatrix →
    ∃ rows columns type, matrixTypeName type ≠ none ∧
      p.desc = some (matrixDescription rows columns type)
  classList : w.pool.classList = systemClasses

theorem Aimed.setup (malloc : Nat → Option (Nat → UInt8)) :
    Aimed (matrixPoolSetup systemClasses malloc) := by
  have hempty : ∀ h p, (matrixPoolSetup systemClasses malloc).pool.pdpPacketHeader h ≠ some p := by
    intro h p hp
    have := mem_of_header hp
    simp [matrixPoolSetup, pdpPacketSetup] at this
  exact ⟨fun h p hp => absurd hp (hempty h p), fun h p hp => absurd hp (hempty h p), rfl⟩

theorem Aimed.served {w : MatrixPool} (ha : Aimed w) {h : Int} {p : Packet}
    (hp : w.pool.pdpPacketHeader h = some p) (ht : p.type = pdpMatrix) :
    ∃ d, p.desc = some d ∧ OfMatrixClass w.pool d := by
  obtain ⟨rows, columns, type, hname, hd⟩ := ha.desc h p hp ht
  exact ⟨_, hd, served_matrix ha.classList rows columns hname⟩

theorem Aimed.elsewhere {w w' : MatrixPool} (ha : Aimed w) (he : Elsewhere w w') : Aimed w' where
  views h p' hp' ht := by
    obtain ⟨p, hp, hm, hs, hsub⟩ := he.kept h p' hp' ht
    rw [hsub, ← hs]
    exact ha.views h p hp (by rw [show p.type = p'.type from congrArg Meta.type hm, ht])
  desc h p' hp' ht := by
    obtain ⟨p, hp, hm, _, _⟩ := he.kept h p' hp' ht
    rw [show p'.desc = p.desc from congrArg Meta.desc hm.symm]
    exact ha.desc h p hp (by rw [show p.type = p'.type from congrArg Meta.type hm, ht])
  classList := he.classList.trans ha.classList

theorem Aimed.made {w w' : MatrixPool} (ha : Aimed w) {rows columns type : Nat} {r : Int}
    (hm : MatrixMade w rows columns type r w')
    (hs : (Construction.matrix rows columns type).Sized) : Aimed w' := by
  obtain ⟨hname, data, hputs, hown⟩ := ownViews_made hm hs
  refine ⟨fun h p hp ht => ?_, fun h p hp ht => ?_, hputs.classList.trans ha.classList⟩
  · by_cases hx : h = r
    · subst hx
      cases hputs.self.symm.trans hp
      rw [hm.subheader, Function.update_self]
      exact hown
    · rw [hputs.other hx] at hp
      rw [hm.subheader, Function.update_of_ne hx]
      exact ha.views h p hp ht
  · by_cases hx : h = r
    · subst hx
      cases hputs.self.symm.trans hp
      exact ⟨rows, columns, type, hname, rfl⟩
    · rw [hputs.other hx] at hp
      exact ha.desc h p hp ht

/-! ## Stores -/

theorem pointer_of_valid {w : MatrixPool} {r : Int} {mtype : Nat} {m : TMatrix}
    (h : validMatrixHeader w r mtype = some m) : m = w.subheader r ∧
      ∃ p, w.pool.pdpPacketHeader r = some p ∧ p.type = pdpMatrix := by
  unfold validMatrixHeader at h
  split at h
  · cases h
  · next p hp =>
      split at h
      · cases h
      · next ht =>
          split at h
          · cases h
          · cases h
            exact ⟨rfl, p, hp, not_not.mp ht⟩

theorem storeThrough_spec {w w' : MatrixPool} {r : Int} {x : ViewStore} (ha : OwnsViews w)
    (h : storeThrough r x w = .ok w') :
    Rewrites w.pool r w'.pool ∧ w'.subheader = w.subheader := by
  unfold storeThrough at h
  split at h
  · cases h
  · next m hm =>
      obtain ⟨rfl, p, hp, ht⟩ := pointer_of_valid hm
      have hr := (ha r p hp ht).packet x.view
      split at h
      · dsimp only at h
        split at h
        · cases h
        · next s hs =>
            cases h
            have hrw := writeBytes_spec hs
            rw [show ({ (w.subheader r).pointer x.view with
              offset := ((w.subheader r).pointer x.view).offset + x.offset } : DataPointer).packet =
              ((w.subheader r).pointer x.view).packet from rfl, hr] at hrw
            exact ⟨hrw, rfl⟩
      · cases h

theorem storesThrough_spec {r : Int} {l : List ViewStore} {w w' : MatrixPool} (ha : Aimed w)
    (h : storesThrough r l w = .ok w') :
    Rewrites w.pool r w'.pool ∧ w'.subheader = w.subheader := by
  induction l generalizing w with
  | nil =>
      cases h
      exact ⟨.refl _ _, rfl⟩
  | cons x l ih =>
      simp only [storesThrough] at h
      split at h
      · cases h
      · next w₁ hx =>
          obtain ⟨hrw, hsub⟩ := storeThrough_spec ha.views hx
          obtain ⟨hrw', hsub'⟩ := ih (ha.elsewhere (hrw.elsewhere hsub)) h
          exact ⟨hrw.trans hrw', hsub'.trans hsub⟩

/-! ## Clones -/

/-- `h` designates a matrix packet that is in use. -/
def MatrixInUse (w : MatrixPool) (h : Int) (p : Packet) : Prop :=
  w.pool.pdpPacketHeader h = some p ∧ p.type = pdpMatrix ∧ p.users ≠ 0

/-- A clone comes from the fifo, or not at all. -/
def ClonedByReuse (s : Pool) (p : Packet) : Prop :=
  (∃ d x q, p.desc = some d ∧ Reusable s d x q) ∨ CopyRefused s p

/-- Such a clone is another packet, with its own views. -/
theorem cloneRw_elsewhere {w w' : MatrixPool} {h r : Int} {p : Packet} (ha : Aimed w)
    (hu : MatrixInUse w h p) (hc : ClonedByReuse w.pool p) (hr : matrixCloneRw h w = .ok (r, w')) :
    Elsewhere w w' ∧ w'.pool.pdpPacketHeader h = some p ∧ w'.subheader h = w.subheader h ∧
      h ≠ r := by
  obtain ⟨hp, ht, hu⟩ := hu
  obtain ⟨d, hd, hserved⟩ := ha.served hp ht
  refine ⟨?_, matrixCloneRw_source hp hu hd hserved hr⟩
  rcases matrixCloneRw_cases hp hu hd hserved hr with ⟨hrev, hsub⟩ | ⟨hnone, hrest⟩
  · exact hrev.elsewhere hsub
  · have hrefused : CopyRefused w.pool p := by
      refine hc.resolve_left ?_
      rintro ⟨d', x, q, hd', hq⟩
      cases hd.symm.trans hd'
      exact hnone x q hq
    obtain ⟨w₁, hrun⟩ := cloneRw_refused hp hd hserved hrefused
    cases hr.symm.trans hrun
    rcases hrest with ⟨_, hsame⟩ | hcopied
    · exact hsame.elsewhere
    · exact absurd hcopied.nonneg (by omega)

/-- What is written through the views of such a clone stays out of the source. -/
theorem source_of_stores {w w₁ w₂ : MatrixPool} {h r : Int} {p : Packet} {l : List ViewStore}
    (ha : Aimed w) (hu : MatrixInUse w h p) (hc : ClonedByReuse w.pool p)
    (hr : matrixCloneRw h w = .ok (r, w₁)) (hl : storesThrough r l w₁ = .ok w₂) :
    Elsewhere w w₂ ∧ w₂.pool.pdpPacketHeader h = some p ∧ w₂.subheader h = w.subheader h := by
  obtain ⟨he, hp, hsub, hne⟩ := cloneRw_elsewhere ha hu hc hr
  obtain ⟨hrw, hsub'⟩ := storesThrough_spec (ha.elsewhere he) hl
  exact ⟨he.trans (hrw.elsewhere hsub'), (hrw.other h hne).trans hp,
    by rw [hsub', hsub]⟩

theorem luSolve_source {w w' : MatrixPool} {solver : LuSolver} {pMatrix pVector r : Int}
    {p : Packet} (ha : Aimed w) (hu : MatrixInUse w pVector p) (hc : ClonedByReuse w.pool p)
    (hr : pdpPacketMatrixLUSolve solver pMatrix pVector w = .ok (r, w')) :
    Elsewhere w w' ∧ w'.pool.pdpPacketHeader pVector = some p ∧
      w'.subheader pVector = w.subheader pVector := by
  unfold pdpPacketMatrixLUSolve at hr
  dsimp only at hr
  split at hr
  · cases hr
  · next c w₁ hclone =>
      obtain ⟨he, hp, hsub, hne⟩ := cloneRw_elsewhere ha hu hc hclone
      have hfail : ∀ w₂, Elsewhere w w₂ → w₂.pool.pdpPacketHeader pVector = some p →
          w₂.subheader pVector = w.subheader pVector → Elsewhere w (w₂.markUnused c) ∧
          (w₂.markUnused c).pool.pdpPacketHeader pVector = some p ∧
          (w₂.markUnused c).subheader pVector = w.subheader pVector :=
        fun w₂ he hp hsub => ⟨he.trans (elsewhere_markUnused w₂ c),
          (header_markUnused_ne hne).trans hp, hsub⟩
      split at hr
      · split at hr
        · split at hr
          · cases hr
          · next w₂ hstores =>
              have hend := source_of_stores ha hu hc hclone hstores
              split at hr
              · cases hr
                exact hfail w₂ hend.1 hend.2.1 hend.2.2
              · cases hr
                exact hend
        · cases hr
          exact hfail w₁ he hp hsub
      · cases hr
        exact hfail w₁ he hp hsub

/-! ## Runs -/

/-- A call that makes, clones or computes with matrix packets.  `stores` is any
other function of the library that is given the views of a packet to write to. -/
inductive MatrixCall where
  | newMatrix (rows columns type : Nat)
  | cloneRw (handle : Int)
  | copyRw (handle : Int)
  | replaceWithWritable (packet : Int)
  | luSolve (solver : LuSolver) (pMatrix pVector : Int)
  | stores (packet : Int) (l : List ViewStore)

namespace MatrixCall

def run : MatrixCall → MatrixPool → Except Fault (Int × MatrixPool)
  | newMatrix rows columns type, w => pdpPacketNewMatrix rows columns type w
  | cloneRw handle, w => matrixCloneRw handle w
  | copyRw handle, w => matrixCopyRw handle w
  | replaceWithWritable packet, w => matrixReplaceWithWritable packet w
  | luSolve solver pMatrix pVector, w => pdpPacketMatrixLUSolve solver pMatrix pVector w
  | stores packet l, w =>
      match storesThrough packet l w with
      | .error e => .error e
      | .ok w => .ok (0, w)

/-- What is cloned is a matrix packet that is in use. -/
def Legal (w : MatrixPool) : MatrixCall → Prop
  | newMatrix _ _ _ | stores _ _ => True
  | cloneRw h | copyRw h | replaceWithWritable h | luSolve _ _ h => ∃ p, MatrixInUse w h p

/-- A new matrix fits, a clone comes from the fifo or not at all, and a copy is
not made. -/
def Aims (w : MatrixPool) : MatrixCall → Prop
  | newMatrix rows columns type => (Construction.matrix rows columns type).Sized
  | cloneRw h | luSolve _ _ h =>
      ∀ p, w.pool.pdpPacketHeader h = some p → ClonedByReuse w.pool p
  | copyRw h => ∀ p, w.pool.pdpPacketHeader h = some p →
      p.flags &&& pdpFlagDonotcopy ≠ 0 ∨ CopyRefused w.pool p
  | replaceWithWritable h => ∀ p, w.pool.pdpPacketHeader h = some p →
      p.users = 1 ∨ p.flags &&& pdpFlagDonotcopy ≠ 0 ∨ CopyRefused w.pool p
  | stores _ _ => True

end MatrixCall

/-- The states that can come of admitted calls and of what happens elsewhere. -/
inductive MatrixReaches (ok : MatrixPool → MatrixCall → Prop) (start : MatrixPool) :
    MatrixPool → Prop
  | refl : MatrixReaches ok start start
  | call {w w' : MatrixPool} {r : Int} (a : MatrixCall) (hw : MatrixReaches ok start w)
      (ha : ok w a) (hr : a.run w = .ok (r, w')) : MatrixReaches ok start w'
  | elsewhere {w w' : MatrixPool} (hw : MatrixReaches ok start w) (he : Elsewhere w w') :
      MatrixReaches ok start w'

theorem copyRw_elsewhere {w w' : MatrixPool} {h r : Int} {p : Packet} (ha : Aimed w)
    (hu : MatrixInUse w h p) (hc : p.flags &&& pdpFlagDonotcopy ≠ 0 ∨ CopyRefused w.pool p)
    (hr : matrixCopyRw h w = .ok (r, w')) : Elsewhere w w' := by
  obtain ⟨hp, ht, hu⟩ := hu
  obtain ⟨d, hd, hserved⟩ := ha.served hp ht
  obtain ⟨w₁, hrun, hsame⟩ := copyRw_refused hp hu hd hserved hc
  cases hr.symm.trans hrun
  exact hsame.elsewhere

theorem replace_elsewhere {w w' : MatrixPool} {h r : Int} {p : Packet} (ha : Aimed w)
    (hu : MatrixInUse w h p)
    (hc : p.users = 1 ∨ p.flags &&& pdpFlagDonotcopy ≠ 0 ∨ CopyRefused w.pool p)
    (hr : matrixReplaceWithWritable h w = .ok (r, w')) : Elsewhere w w' := by
  unfold matrixReplaceWithWritable at hr
  split at hr
  · cases hr
    exact .refl w
  · next hany =>
      have hne : p.users ≠ 1 := by
        intro h1
        refine hany ?_
        rw [hu.1, Option.any_some, h1]
        rfl
      split at hr
      · cases hr
      · next r₁ w₁ hcopy =>
          cases hr
          exact (copyRw_elsewhere ha hu (hc.resolve_left hne) hcopy).trans
            (elsewhere_markUnused w₁ h)

theorem Aimed.call {w w' : MatrixPool} {a : MatrixCall} {r : Int} (ha : Aimed w)
    (hl : a.Legal w) (hc : a.Aims w) (hr : a.run w = .ok (r, w')) : Aimed w' := by
  cases a with
  | newMatrix rows columns type =>
      rcases pdpPacketNewMatrix_cases hr with ⟨_, hs, hsub⟩ | hm
      · exact ha.elsewhere (Untouched.elsewhere ⟨hs.header, hsub, hs.classList⟩)
      · exact ha.made hm hc
  | cloneRw h =>
      obtain ⟨p, hu⟩ := hl
      exact ha.elsewhere (cloneRw_elsewhere ha hu (hc p hu.1) hr).1
  | copyRw h =>
      obtain ⟨p, hu⟩ := hl
      exact ha.elsewhere (copyRw_elsewhere ha hu (hc p hu.1) hr)
  | replaceWithWritable h =>
      obtain ⟨p, hu⟩ := hl
      exact ha.elsewhere (replace_elsewhere ha hu (hc p hu.1) hr)
  | luSolve solver pMatrix pVector =>
      obtain ⟨p, hu⟩ := hl
      exact ha.elsewhere (luSolve_source ha hu (hc p hu.1) hr).1
  | stores packet l =>
      simp only [MatrixCall.run] at hr
      split at hr
      · cases hr
      · next w₁ hstores =>
          cases hr
          obtain ⟨hrw, hsub⟩ := storesThrough_spec ha hstores
          exact ha.elsewhere (hrw.elsewhere hsub)

theorem MatrixReaches.aimed {malloc : Nat → Option (Nat → UInt8)} {w : MatrixPool}
    (hw : MatrixReaches (fun w a => a.Legal w ∧ a.Aims w)
      (matrixPoolSetup systemClasses malloc) w) : Aimed w := by
  induction hw with
  | refl => exact .setup malloc
  | call a _ ha hr ih => exact ih.call ha.1 ha.2 hr
  | elsewhere _ he ih => exact ih.elsewhere he

/-- Every matrix packet has its own views, and to write through the views of a
clone, as `pdp_packet_matrix_LU_solve` does, leaves its source alone. -/
structure ViewsAimed (w : MatrixPool) : Prop where
  views : OwnsViews w
  stores : ∀ (h : Int) (p : Packet) (r : Int) (l : List ViewStore) (w₁ w₂ : MatrixPool),
    MatrixInUse w h p → ClonedByReuse w.pool p → matrixCloneRw h w = .ok (r, w₁) →
    storesThrough r l w₁ = .ok w₂ →
    w₂.pool.pdpPacketHeader h = some p ∧ w₂.subheader h = w.subheader h
  luSolve : ∀ (solver : LuSolver) (pMatrix pVector : Int) (p : Packet) (r : Int) (w' : MatrixPool),
    MatrixInUse w pVector p → ClonedByReuse w.pool p →
    pdpPacketMatrixLUSolve solver pMatrix pVector w = .ok (r, w') →
    w'.pool.pdpPacketHeader pVector = some p ∧ w'.subheader pVector = w.subheader pVector

/-- In every run whose matrices fit and whose clones come from the fifo, the
views point home. -/
theorem reachable_viewsAimed (malloc : Nat → Option (Nat → UInt8)) (w : MatrixPool)
    (hw : MatrixReaches (fun w a => a.Legal w ∧ a.Aims w)
      (matrixPoolSetup systemClasses malloc) w) : ViewsAimed w where
  views := hw.aimed.views
  stores _ _ _ _ _ _ hu hc hr hl := (source_of_stores hw.aimed hu hc hr hl).2
  luSolve _ _ _ _ _ _ hu hc hr := (luSolve_source hw.aimed hu hc hr).2

/-- The system before the first packet, with a heap that never fails. -/
def freshSystem : MatrixPool := matrixPoolSetup systemClasses zeroHeap

theorem clone_fresh : ∃ w₁ w₂,
    pdpPacketNewMatrix 1 1 pdpMatrixTypeRDOUBLE freshSystem = .ok (0, w₁) ∧
      matrixCloneRw 0 w₁ = .ok (1, w₂) :=
  ⟨_, _, by with_unfolding_all rfl, by with_unfolding_all rfl⟩

/-- The packet of a matrix that has just been constructed. -/
theorem inUse_made {w w' : MatrixPool} {rows columns type : Nat} {r : Int}
    (hm : MatrixMade w rows columns type r w') : ∃ p, MatrixInUse w' r p := by
  obtain ⟨data, _, _, hputs⟩ := hm.puts
  exact ⟨_, hputs.self, rfl, Nat.one_ne_zero⟩

/-- Of two matrices one is released, and the clone of the other takes its place. -/
theorem clone_reused : ∃ w₁ w₂ w₃,
    pdpPacketNewMatrix 1 1 pdpMatrixTypeRDOUBLE freshSystem = .ok (0, w₁) ∧
      pdpPacketNewMatrix 1 1 pdpMatrixTypeRDOUBLE w₁ = .ok (1, w₂) ∧
      matrixCloneRw 0 (w₂.markUnused 1) = .ok (1, w₃) ∧
      (w₃.pool.pdpPacketHeader 1).map Packet.users = some 1 :=
  ⟨_, _, _, by with_unfolding_all rfl, by with_unfolding_all rfl, by with_unfolding_all rfl,
    by with_unfolding_all rfl⟩

theorem reachable_viewsAimed_reused :
    ∃ w, (w.pool.pdpPacketHeader 1).map Packet.users = some 1 ∧ ViewsAimed w := by
  obtain ⟨w₁, w₂, w₃, hfirst, hsecond, hclone, husers⟩ := clone_reused
  have hm₁ := (pdpPacketNewMatrix_cases hfirst).resolve_left fun h => by cases h.1
  have hm₂ := (pdpPacketNewMatrix_cases hsecond).resolve_left fun h => by cases h.1
  obtain ⟨data₁, -, -, hputs₁⟩ := hm₁.puts
  obtain ⟨data₂, -, -, hputs₂⟩ := hm₂.puts
  have hp : (w₂.markUnused 1).pool.pdpPacketHeader 0 = some _ :=
    (header_markUnused_ne (by decide)).trans
      ((hputs₂.header 0).trans ((if_neg (by decide)).trans hputs₁.self))
  have hq := (header_markUnused hputs₂.self 1).trans (if_pos rfl)
  -- the second matrix is put into the fifo of its type
  obtain ⟨d, hd, hfifo⟩ : ∃ d, some d = (initialHeader (Packet.fresh pdpMatrix data₂).toMeta
      (initialSubheader 1 1 1 pdpMatrixTypeRDOUBLE)).desc ∧
      1 ∈ (w₂.markUnused 1).pool.reusefifo d := by
    rcases pdpPacketMarkUnused_eq hputs₂.self with ⟨-, h | h⟩ | ⟨d, hd, -, he⟩
    · exact absurd h (Nat.lt_irrefl 1)
    · cases h
    · refine ⟨d, hd.symm, ?_⟩
      show 1 ∈ (pdpPacketMarkUnused 1 w₂.pool).reusefifo d
      rw [he]
      exact mem_reusefifo_save.mpr (Or.inr ⟨rfl, rfl⟩)
  refine ⟨w₃, husers, reachable_viewsAimed zeroHeap w₃ ?_⟩
  have h₁ : MatrixReaches (fun w a => a.Legal w ∧ a.Aims w) freshSystem w₁ :=
    .call (.newMatrix 1 1 pdpMatrixTypeRDOUBLE) .refl ⟨trivial, Or.inl (by decide)⟩ hfirst
  have h₂ := h₁.call (.newMatrix 1 1 pdpMatrixTypeRDOUBLE) ⟨trivial, Or.inl (by decide)⟩ hsecond
  have h₃ := h₂.elsewhere (elsewhere_markUnused w₂ 1)
  refine h₃.call (.cloneRw 0) ⟨⟨_, hp, rfl, Nat.one_ne_zero⟩, fun p hp' => ?_⟩ hclone
  cases hp.symm.trans hp'
  exact Or.inl ⟨d, 1, _, hd.symm, hfifo, hq, rfl, d, hd.symm, pdpTypeDescriptionMatch_self d⟩

/-- A clone for which the fifo has nothing is aimed at its source. -/
theorem not_reachable_viewsAimed :
    ¬ ∀ w, MatrixReaches (fun w a => a.Legal w) freshSystem w → ViewsAimed w := by
  intro hall
  obtain ⟨w₁, w₂, hnew, hclone⟩ := clone_fresh
  rcases pdpPacketNewMatrix_cases hnew with ⟨h, _⟩ | hm
  · cases h
  · have ha : Aimed w₁ := (Aimed.setup zeroHeap).made hm (Or.inl (by decide))
    obtain ⟨p, hu⟩ := inUse_made hm
    obtain ⟨d, hd, hserved⟩ := ha.served hu.1 hu.2.1
    have hreach : MatrixReaches (fun w a => a.Legal w) freshSystem w₂ :=
      .call (.cloneRw 0) (.call (.newMatrix 1 1 pdpMatrixTypeRDOUBLE) .refl trivial hnew)
        ⟨p, hu⟩ hclone
    rcases matrixCloneRw_cases hu.1 hu.2.2 hd hserved hclone with
      ⟨hrev, _⟩ | ⟨_, ⟨h, _⟩ | hcopied⟩
    · obtain ⟨q, hq, _⟩ := hrev.reusable
      obtain ⟨data, _, _, hputs⟩ := hm.puts
      have hfifo := hq.1
      rw [hputs.reusefifo] at hfifo
      cases hfifo
    · cases h
    · obtain ⟨data, _, hh⟩ := hcopied.header
      have hviews := (hall w₂ hreach).views 1 _ ((hh 1).trans (if_pos rfl)) hu.2.1
      have hpacket := hviews.packet .block
      rw [hcopied.subheader, Function.update_self] at hpacket
      rw [(ha.views 0 p hu.1 hu.2.1).packet .block] at hpacket
      cases hpacket

end PureDataPacket
