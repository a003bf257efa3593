/-
# `PureDataPacket.Kernel.Newpacket` — what becomes of a request by name

`pdp_factory_newpacket` takes any name.  It looks for an unused packet in the
fifo of the name, then for the first class whose template matches, and the
factory of this class takes the name apart.  The match is symmetric, so the
name may be more general than the template: `*` matches every class, and a
factory that is given it pops a second word from a list of one.

`Answerable` says when the request comes to an end: the walk through the fifo
meets only handles that have a packet, the name is not `*` before the image or
the bitmap factory, and the packet pool can make what is asked for.  Then the
answer is -1 or a packet with one user and exactly the name as its description,
since no description in the pool has a wildcard in it.

| | |
| :-- | :-- |
| `PlainPool` | neither a description nor the name of a fifo in use has a wildcard |
| `PlainRun` | the pools that operations lead to |
| `Walk` | what `pdp_packet_reuse` meets in a fifo |
| `CanMake` | the pool can make a packet |
| `crash_iff` | only `*` makes a factory of the repository pop from an empty list |
| `Answer` | `r` is a packet with one user and the description `type`, or -1 |
| `Answerable` | when a request by name comes to its end |
-/
import PureDataPacket.Kernel.CloneRw
import PureDataPacket.Kernel.Interning
import PureDataPacket.Type.Constructors

namespace PureDataPacket

open Pool

/-! ## Names without wildcards -/

/-- No word of the name is `*`. -/
def Plain (d : Symbol) : Prop := symWildcard ∉ pdpTypeToList d

theorem pdpTypeToList_inj {a b : Symbol} (h : pdpTypeToList a = pdpTypeToList b) : a = b := by
  rw [pdpTypeToList_eq, pdpTypeToList_eq] at h
  have hjoin := congrArg ['/'].intercalate h
  rwa [List.intercalate_splitOn, List.intercalate_splitOn] at hjoin

theorem pdpTypeToList_ne_nil (d : Symbol) : pdpTypeToList d ≠ [] := by
  rw [pdpTypeToList_eq]
  exact List.splitOn_ne_nil '/' d

theorem eq_of_match {a b : Symbol} (ha : Plain a) (hb : Plain b)
    (h : pdpTypeDescriptionMatch a b = true) : a = b := by
  rw [pdpTypeDescriptionMatch_iff, ← pdpTypeToList_eq, ← pdpTypeToList_eq] at h
  have hlen : (pdpTypeToList a).length = (pdpTypeToList b).length := by
    rcases Nat.lt_trichotomy (pdpTypeToList a).length (pdpTypeToList b).length with hlt | heq | hgt
    · exact absurd (List.mem_of_getLast? (h.shorter hlt)) ha
    · exact heq
    · exact absurd (List.mem_of_getLast? (h.longer hgt)) hb
  refine pdpTypeToList_inj (List.ext_getElem hlen fun i hi hi' => ?_)
  have hagree := h.agree i _ _ (List.getElem?_eq_getElem hi) (List.getElem?_eq_getElem hi')
  rcases hagree with hw | hw | he
  · exact absurd (hw ▸ List.getElem_mem hi) ha
  · exact absurd (hw ▸ List.getElem_mem hi') hb
  · exact he

/-- Neither a description nor the name of a fifo in use has a wildcard. -/
structure PlainPool (s : Pool) : Prop where
  desc : ∀ h p d, s.pdpPacketHeader h = some p → p.desc = some d → Plain d
  fifo : ∀ d h, h ∈ s.reusefifo d → Plain d

namespace PlainPool

variable {s s' : Pool}

theorem setup (classList : List PdpClass) (malloc : Nat → Option (Nat → UInt8)) :
    PlainPool (pdpPacketSetup classList malloc) where
  desc h p d hp _ := by
    have := mem_of_header hp
    simp [pdpPacketSetup] at this
  fifo d h hh := absurd hh List.not_mem_nil

theorem of_same (hs : PlainPool s) (h : Same s s') : PlainPool s' where
  desc x p d hp hd := hs.desc x p d (h.header x ▸ hp) hd
  fifo d x hx := hs.fifo d x (h.reusefifo ▸ hx)

theorem of_puts (hs : PlainPool s) {h : Int} {x : Option Packet} (hput : Puts s h x s')
    (hx : ∀ p d, x = some p → p.desc = some d → Plain d) : PlainPool s' where
  desc y p d hp hd := by
    rw [hput.header] at hp
    split at hp
    · exact hx p d hp hd
    · exact hs.desc y p d hp hd
  fifo d y hy := hs.fifo d y (hput.reusefifo ▸ hy)

theorem of_handsOut (hs : PlainPool s) {t n : Nat} {r : Int} (h : HandsOut s t n r s') :
    PlainPool s' := by
  obtain ⟨data, _, hput⟩ := h.puts
  refine hs.of_puts hput fun p d hp hd => ?_
  cases hp
  cases hd

theorem pop (hs : PlainPool s) {d : Symbol} {h : Int} {l : List Int}
    (hl : s.reusefifo d = h :: l) : PlainPool (s.setFifo d l) where
  desc x p d' hp hd := hs.desc x p d' hp hd
  fifo d' x hx := by
    rw [reusefifo_setFifo] at hx
    split at hx
    · next he => exact he ▸ hs.fifo d h (hl ▸ List.mem_cons_self)
    · exact hs.fifo d' x hx

theorem save (hs : PlainPool s) {h : Int} {d : Symbol} (hd : Plain d) :
    PlainPool (pdpPacketSaveNolock h d s) where
  desc x p d' hp hd' := hs.desc x p d' (header_save s h d x ▸ hp) hd'
  fifo d' x hx := by
    rcases mem_reusefifo_save.mp hx with hx | ⟨rfl, _⟩
    · exact hs.fifo d' x hx
    · exact hd

theorem reuse (hs : PlainPool s) {d : Option Symbol} {r : Int}
    (h : pdpPacketReuse d s = .ok (r, s')) : PlainPool s' := by
  cases d with
  | none =>
      cases h
      exact hs
  | some d =>
      have hinv := reuseFrom_inv (I := PlainPool) (d := d)
        (fun t x l p ht hl _ _ => ht.pop hl)
        (fun t x l p d' ht hl hp _ hd' _ => (ht.pop hl).save (ht.desc x p d' hp hd'))
        hs rfl h
      rcases hinv with ⟨_, ht, _⟩ | ⟨t, p, rest, ht, hfound, rfl⟩
      · exact ht
      · have hheader : (t.setFifo d rest).pdpPacketHeader r = some p := hfound.header
        refine (ht.pop hfound.fifo).of_puts (puts_of_header hheader _) fun q d' hq hd' => ?_
        cases hq
        exact ht.desc r p d' hfound.header hd'

theorem markUnused (hs : PlainPool s) (h : Int) : PlainPool (pdpPacketMarkUnused h s) := by
  cases hp : s.pdpPacketHeader h with
  | none =>
      rw [pdpPacketMarkUnused_none hp]
      exact hs
  | some p =>
      have hput : PlainPool (s.put h (some { p with users := p.users - 1 })) :=
        hs.of_puts (puts_of_header hp _) fun q d hq hd => by
          cases hq
          exact hs.desc h p d hp hd
      rcases pdpPacketMarkUnused_eq hp with ⟨he, _⟩ | ⟨d, hd, _, he⟩
      · exact he ▸ hput
      · exact he ▸ hput.save (hs.desc h p d hp hd)

end PlainPool

/-- A header is only ever written with a description that has no wildcard: that
is what the constructors print. -/
def WritesPlain : PoolOp → Prop
  | .writeHeader _ m => ∀ d, m.desc = some d → Plain d
  | _ => True

/-- The pools that operations lead to. -/
inductive PlainRun (classList : List PdpClass) (malloc : Nat → Option (Nat → UInt8)) : Pool → Prop
  | setup : PlainRun classList malloc (pdpPacketSetup classList malloc)
  | step {s s' : Pool} {o : PoolOp} {answer : o.Answer} (hs : PlainRun classList malloc s)
      (hplain : WritesPlain o) (h : o.exec s = .ok (answer, s')) : PlainRun classList malloc s'

theorem PlainPool.step {s s' : Pool} (hs : PlainPool s) {o : PoolOp} {answer : o.Answer}
    (hplain : WritesPlain o) (h : o.exec s = .ok (answer, s')) : PlainPool s' := by
  cases o with
  | create t n =>
      rcases pdpPacketCreate_spec h with ⟨_, hsame⟩ | ⟨_, hout⟩
      · exact hs.of_same hsame
      · exact hs.of_handsOut hout
  | new t n =>
      rcases pdpPacketNew_spec h with ⟨_, hsame⟩ | hout
      · exact hs.of_same hsame
      · exact hs.of_handsOut hout
  | reuse d => exact hs.reuse h
  | copyRo handle =>
      have he : pdpPacketCopyRo handle s = (answer, s') := Except.ok.inj h
      cases hp : s.pdpPacketHeader handle with
      | none =>
          rw [pdpPacketCopyRo_none hp] at he
          cases he
          exact hs
      | some p =>
          rw [pdpPacketCopyRo_eq hp] at he
          cases he
          refine hs.of_puts (puts_of_header hp _) fun q d hq hd => ?_
          cases hq
          exact hs.desc handle p d hp hd
  | markUnused handle =>
      cases h
      exact hs.markUnused handle
  | delete handle =>
      refine hs.of_puts (pdpPacketDelete_spec (PoolOp.effect_eq_ok h)).2 fun p d hp => ?_
      cases hp
  | header handle =>
      cases h
      exact hs
  | classes =>
      cases h
      exact hs
  | writeHeader handle m =>
      obtain ⟨p, _, hput⟩ := writeHeader_spec (PoolOp.effect_eq_ok h)
      refine hs.of_puts hput fun q d hq hd => ?_
      cases hq
      exact hplain d hd
  | memcpyHeader dst src =>
      obtain ⟨p, q, _, hq, hput⟩ := memcpyHeader_spec (PoolOp.effect_eq_ok h)
      refine hs.of_puts hput fun q' d hq' hd => ?_
      cases hq'
      exact hs.desc src q d hq hd
  | memcpyData dst bytes =>
      obtain ⟨p, _, hp, hput⟩ := memcpyData_spec (PoolOp.effect_eq_ok h)
      refine hs.of_puts hput fun q d hq hd => ?_
      cases hq
      exact hs.desc dst p d hp hd

theorem PlainRun.plain {classList : List PdpClass} {malloc : Nat → Option (Nat → UInt8)}
    {s : Pool} (hs : PlainRun classList malloc s) : PlainPool s := by
  induction hs with
  | setup => exact .setup classList malloc
  | step _ hplain h ih => exact ih.step hplain h

/-! ## The walk through the fifo -/

/-- What `pdp_packet_reuse` meets in a fifo: handles that are in use, and unused
packets of other descriptions, until there is one that matches. -/
inductive Walk (d : Symbol) (s : Pool) : List Int → Bool → Prop
  | none : Walk d s [] false
  | found {h : Int} {l : List Int} {p : Packet} {d' : Symbol} (hp : s.pdpPacketHeader h = some p)
      (hu : p.users = 0) (hd : p.desc = some d') (hm : pdpTypeDescriptionMatch d' d = true) :
      Walk d s (h :: l) true
  | inUse {h : Int} {l : List Int} {p : Packet} {b : Bool} (hp : s.pdpPacketHeader h = some p)
      (hu : p.users ≠ 0) (hl : Walk d s l b) : Walk d s (h :: l) b
  | other {h : Int} {l : List Int} {p : Packet} {d' : Symbol} {b : Bool}
      (hp : s.pdpPacketHeader h = some p) (hu : p.users = 0) (hd : p.desc = some d')
      (hm : pdpTypeDescriptionMatch d' d = false) (hl : Walk d s l b) : Walk d s (h :: l) b

/-- Two pools that differ in their fifos only. -/
structure SameSlotsAndHeap (s s' : Pool) : Prop where
  pdpPool : s'.pdpPool = s.pdpPool
  classList : s'.classList = s.classList
  malloc : s'.malloc = s.malloc
  mallocs : s'.mallocs = s.mallocs

namespace SameSlotsAndHeap

variable {s s' : Pool}

theorem refl (s : Pool) : SameSlotsAndHeap s s := ⟨rfl, rfl, rfl, rfl⟩

theorem header (h : SameSlotsAndHeap s s') (x : Int) :
    s'.pdpPacketHeader x = s.pdpPacketHeader x := by
  unfold pdpPacketHeader pdpPoolSize
  rw [h.pdpPool]

theorem setFifo (h : SameSlotsAndHeap s s') (d : Symbol) (l : List Int) :
    SameSlotsAndHeap s (s'.setFifo d l) := ⟨h.pdpPool, h.classList, h.malloc, h.mallocs⟩

theorem save (h : SameSlotsAndHeap s s') (x : Int) (d : Symbol) :
    SameSlotsAndHeap s (pdpPacketSaveNolock x d s') := by
  unfold pdpPacketSaveNolock
  split
  · exact h
  · exact h.setFifo ..

end SameSlotsAndHeap

/-- What the loop of `pdp_packet_reuse` ends with, if its walk is as said. -/
inductive Walked (d : Symbol) (s : Pool) : Bool → Int → Pool → Prop
  | none {s' : Pool} (h : SameSlotsAndHeap s s') : Walked d s false (-1) s'
  | found {r : Int} {p : Packet} {d' : Symbol} {s' : Pool} (hp : s.pdpPacketHeader r = some p)
      (hd : p.desc = some d') (hm : pdpTypeDescriptionMatch d' d = true)
      (hr : s'.pdpPacketHeader r = some { p with users := 1 }) : Walked d s true r s'

section Reuse

variable {s t : Pool} {d : Symbol} {l : List Int}

theorem reuseFrom_of_walk {b : Bool} (h : Walk d s l b) (hst : SameSlotsAndHeap s t) :
    ∃ r t', reuseFrom d l t = .ok (r, t') ∧ Walked d s b r t' := by
  induction h generalizing t with
  | none => exact ⟨-1, t, rfl, .none hst⟩
  | @found h l p d' hp hu hd hm =>
      have hp' : (t.setFifo d l).pdpPacketHeader h = some p := (hst.header h).trans hp
      refine ⟨h, _, ?_, .found hp hd hm (puts_of_header hp' (some { p with users := 1 })).self⟩
      simp only [reuseFrom, hp', hu, hd, hm, if_true]
  | @inUse h l p b hp hu _ ih =>
      have hp' : (t.setFifo d l).pdpPacketHeader h = some p := (hst.header h).trans hp
      simp only [reuseFrom, hp', if_neg hu]
      exact ih (hst.setFifo d l)
  | @other h l p d' b hp hu hd hm _ ih =>
      have hp' : (t.setFifo d l).pdpPacketHeader h = some p := (hst.header h).trans hp
      simp only [reuseFrom, hp', hu, hd, hm, if_true, Bool.false_eq_true, if_false]
      exact ih ((hst.setFifo d l).save h d')

theorem walk_of_reuseFrom {r : Int} {t' : Pool} (hst : SameSlotsAndHeap s t)
    (h : reuseFrom d l t = .ok (r, t')) : ∃ b, Walk d s l b := by
  induction l generalizing t with
  | nil => exact ⟨false, .none⟩
  | cons x l ih =>
      simp only [reuseFrom, header_setFifo, hst.header] at h
      split at h
      · cases h
      · next p hp =>
          split at h
          · next hu =>
              split at h
              · cases h
              · next d' hd =>
                  split at h
                  · next hm => exact ⟨true, .found hp hu hd hm⟩
                  · next hm =>
                      obtain ⟨b, hb⟩ := ih ((hst.setFifo d l).save x d') h
                      exact ⟨b, .other hp hu hd (by simpa using hm) hb⟩
          · next hu =>
              obtain ⟨b, hb⟩ := ih (hst.setFifo d l) h
              exact ⟨b, .inUse hp hu hb⟩

end Reuse

/-! ## What the pool can make -/

/-- The pool has a packet of `n` bytes to recycle, or room for a new one and a
size that does not wrap below that of a header. -/
inductive CanMake (n : Nat) (s : Pool) : Prop
  | recycled (h : findPacketFrom (reapable n) s.pdpPool 0 ≠ none)
  | slot (h : firstEmpty s ≠ none) (hsize : Overruns n → s.malloc s.mallocs = none)
  | grown (h : firstEmpty s = none) (hroom : 2 * s.pdpPoolSize * 8 < 2 ^ 31)
      (hmem : s.malloc s.mallocs ≠ none) (hsize : Overruns n → s.malloc (s.mallocs + 1) = none)

section Make

variable {s : Pool} {t n : Nat}

theorem alloc_ok_iff : (∃ o, pdpPacketAllocNolock t n s = .ok o) ↔
    (Overruns n → s.malloc s.mallocs = none) := by
  unfold pdpPacketAllocNolock Overruns
  dsimp only
  split
  · cases hm : s.malloc s.mallocs with
    | none => exact iff_of_true ⟨_, rfl⟩ fun _ => rfl
    | some fill =>
        dsimp only
        split
        · next hlo => exact iff_of_true ⟨_, rfl⟩ fun h => absurd hlo (Nat.not_le_of_lt h)
        · next hlo =>
            refine iff_of_false (fun hok => ?_) fun h => ?_
            · obtain ⟨o, h⟩ := hok
              cases h
            · cases h (Nat.lt_of_not_le hlo)
  · next hhi =>
      refine iff_of_true ⟨_, rfl⟩ fun h => absurd (Nat.lt_trans h ?_) hhi
      decide

theorem createAt_ok_iff {slot : Nat} : (∃ o, createAt t n slot s = .ok o) ↔
    (Overruns n → s.malloc s.mallocs = none) := by
  rw [← alloc_ok_iff (t := t)]
  unfold createAt
  cases pdpPacketAllocNolock t n s with
  | error e => exact iff_of_false (fun ⟨o, h⟩ => by cases h) fun ⟨o, h⟩ => by cases h
  | ok o =>
      obtain ⟨header, s'⟩ := o
      cases header with
      | none => exact iff_of_true ⟨_, rfl⟩ ⟨_, rfl⟩
      | some header => exact iff_of_true ⟨_, rfl⟩ ⟨_, rfl⟩

theorem expand_eq_ok_iff {s' : Pool} : pdpPoolExpandNolock s = .ok s' ↔
    2 * s.pdpPoolSize * 8 < 2 ^ 31 ∧ s.malloc s.mallocs ≠ none ∧ s' = s.tick.grow := by
  unfold pdpPoolExpandNolock
  split
  · next hbig =>
      exact iff_of_false (fun h => by cases h) fun h => absurd h.1 (Nat.not_lt_of_le hbig)
  · next hroom =>
      cases hmem : s.malloc s.mallocs with
      | none => exact iff_of_false (fun h => by cases h) fun h => h.2.1 rfl
      | some fill =>
          refine ⟨fun h => ?_, fun h => by rw [h.2.2]⟩
          cases h
          exact ⟨Nat.lt_of_not_le hroom, Option.some_ne_none fill, rfl⟩

theorem pdpPacketCreate_ok_iff : (∃ o, pdpPacketCreate t n s = .ok o) ↔
    (firstEmpty s ≠ none ∧ (Overruns n → s.malloc s.mallocs = none)) ∨
      (firstEmpty s = none ∧ 2 * s.pdpPoolSize * 8 < 2 ^ 31 ∧ s.malloc s.mallocs ≠ none ∧
        (Overruns n → s.malloc (s.mallocs + 1) = none)) := by
  unfold pdpPacketCreate
  cases hempty : firstEmpty s with
  | some slot =>
      dsimp only
      rw [createAt_ok_iff]
      exact ⟨fun h => Or.inl ⟨Option.some_ne_none slot, h⟩,
        fun h => h.elim And.right fun h => by cases h.1⟩
  | none =>
      dsimp only
      constructor
      · intro h
        cases he : pdpPoolExpandNolock s with
        | error e =>
            rw [he] at h
            obtain ⟨o, h⟩ := h
            cases h
        | ok s' =>
            rw [he] at h
            obtain ⟨hroom, hmem, rfl⟩ := expand_eq_ok_iff.mp he
            exact Or.inr ⟨rfl, hroom, hmem, createAt_ok_iff.mp h⟩
      · rintro (⟨h, _⟩ | ⟨_, hroom, hmem, hsize⟩)
        · exact absurd rfl h
        · rw [expand_eq_ok_iff.mpr ⟨hroom, hmem, rfl⟩]
          exact createAt_ok_iff.mpr hsize

theorem pdpPacketNew_ok_iff : (∃ o, pdpPacketNew t n s = .ok o) ↔ CanMake n s := by
  unfold pdpPacketNew
  cases hfind : findPacketFrom (reapable n) s.pdpPool 0 with
  | some found =>
      refine iff_of_true ⟨_, rfl⟩ (.recycled ?_)
      rw [hfind]
      exact Option.some_ne_none found
  | none =>
      rw [pdpPacketCreate_ok_iff]
      constructor
      · rintro (⟨h, hsize⟩ | ⟨h, hroom, hmem, hsize⟩)
        · exact .slot h hsize
        · exact .grown h hroom hmem hsize
      · intro h
        cases h with
        | recycled h => exact absurd hfind h
        | slot h hsize => exact Or.inl ⟨h, hsize⟩
        | grown h hroom hmem hsize => exact Or.inr ⟨h, hroom, hmem, hsize⟩

theorem CanMake.same {s' : Pool} (h : SameSlotsAndHeap s s') : CanMake n s' ↔ CanMake n s := by
  have hempty : firstEmpty s' = firstEmpty s := by
    unfold firstEmpty
    rw [h.pdpPool]
  have hsize : s'.pdpPoolSize = s.pdpPoolSize := by
    unfold pdpPoolSize
    rw [h.pdpPool]
  constructor
  · intro hs
    cases hs with
    | recycled hs => exact .recycled (h.pdpPool ▸ hs)
    | slot hs hsz => exact .slot (hempty ▸ hs) (h.malloc ▸ h.mallocs ▸ hsz)
    | grown hs hroom hmem hsz =>
        exact .grown (hempty ▸ hs) (hsize ▸ hroom) (h.malloc ▸ h.mallocs ▸ hmem)
          (h.malloc ▸ h.mallocs ▸ hsz)
  · intro hs
    cases hs with
    | recycled hs => exact .recycled (h.pdpPool.symm ▸ hs)
    | slot hs hsz => exact .slot (hempty.symm ▸ hs) (by rw [h.malloc, h.mallocs]; exact hsz)
    | grown hs hroom hmem hsz =>
        exact .grown (hempty.symm ▸ hs) (hsize.symm ▸ hroom) (by rw [h.malloc, h.mallocs]; exact hmem)
          (by rw [h.malloc, h.mallocs]; exact hsz)

end Make

/-! ## The factory -/

/-- `r` is a packet with one user and the description `type`, or -1. -/
def Answer (type : Symbol) (r : Int) (s : Pool) : Prop :=
  r = -1 ∨ ∃ p, s.pdpPacketHeader r = some p ∧ p.users = 1 ∧ p.desc = some type

section Factory

variable {s : Pool} {type : Symbol}

/-- The end of a factory: it never faults on a packet. -/
theorem run_keepExact (type : Symbol) {r : Int} {p : Packet} (hp : s.pdpPacketHeader r = some p)
    (hu : p.users = 1) :
    ∃ r' s', PoolProg.run (keepExact type r) s = .ok (r', s') ∧ Answer type r' s' := by
  have hne : r ≠ -1 := ne_neg_one_of_header hp
  have hheader : PoolOp.exec (.header r) s = .ok (some p, s) := by rw [PoolOp.exec, hp]
  unfold keepExact
  rw [if_neg hne]
  by_cases hd : p.desc = some type
  · refine ⟨r, s, (Prog.run_act_ok hheader).trans ?_, Or.inr ⟨p, hp, hu, hd⟩⟩
    show Prog.run PoolOp.exec (if some type ≠ p.desc then _ else _) s = _
    rw [if_neg (not_not.mpr hd.symm)]
    rfl
  · have hdelete : PoolOp.exec (.delete r) s = .ok ((), s.put r none) := by
      simp only [PoolOp.exec, pdpPacketDelete, hp, PoolOp.effect]
    refine ⟨-1, s.put r none, (Prog.run_act_ok hheader).trans ?_, Or.inl rfl⟩
    show Prog.run PoolOp.exec (if some type ≠ p.desc then _ else _) s = _
    rw [if_pos (Ne.symm hd)]
    exact Prog.run_act_ok hdelete

theorem run_build (b : Blueprint) (s : Pool) :
    (∃ r s', PoolProg.run (b.build.bind (keepExact type)) s = .ok (r, s') ∧ Answer type r s') ↔
      CanMake b.packetSize s := by
  have hbuild := constructs_construct b.datatype b.packetSize b.init
  rw [← pdpPacketNew_ok_iff (t := b.datatype)]
  cases hnew : pdpPacketNew b.datatype b.packetSize s with
  | error e =>
      refine iff_of_false (fun ⟨r, s', h, _⟩ => ?_) fun ⟨o, h⟩ => by cases h
      obtain ⟨r₁, s₁, h₁, _⟩ := Prog.run_bind_eq_ok.mp h
      have hrun : Prog.run PoolOp.exec b.build s = .error e := hbuild.error hnew
      rw [hrun] at h₁
      cases h₁
  | ok o =>
      obtain ⟨r, s₁⟩ := o
      refine iff_of_true ?_ ⟨_, rfl⟩
      rcases pdpPacketNew_spec hnew with ⟨rfl, _⟩ | hout
      · exact ⟨-1, s₁, Prog.run_bind_ok (hbuild.fail hnew), Or.inl rfl⟩
      · obtain ⟨data, _, hput⟩ := hout.puts
        obtain ⟨s₂, hrun, hput₂⟩ := hbuild.ok hnew hput.self
        obtain ⟨r', s', hkeep, hanswer⟩ := run_keepExact type hput₂.self rfl
        exact ⟨r', s', (Prog.run_bind_ok hrun).trans hkeep, hanswer⟩

/-! ## Which names reach a factory -/

def registered : List PdpClass :=
  [imageClass, bitmapClass, matrixClass, textureClass, contextClass]

/-- A name with fewer words than a factory pops, which still matches the template
of its class, is a wildcard and nothing else. -/
theorem eq_wildcard_of_short {word : Symbol} (enc : Symbol → Option Nat)
    (henc : enc symWildcard = none)
    (hm : SegmentsMatch (pdpTypeToList type) [word, symWildcard, symWildcard])
    (hshort : (∃ a, pdpTypeToList type = [a]) ∨
      ∃ a b, pdpTypeToList type = [a, b] ∧ enc b ≠ none) : type = symWildcard := by
  rcases hshort with ⟨a, ha⟩ | ⟨a, b, hab, hb⟩
  · have hlt : 1 < 3 := by decide
    have hlast := hm.shorter (by rw [ha]; exact hlt)
    rw [ha] at hlast
    cases hlast
    exact pdpTypeToList_inj (ha.trans (by decide))
  · have hlt : 2 < 3 := by decide
    have hlast := hm.shorter (by rw [hab]; exact hlt)
    rw [hab] at hlast
    cases hlast
    exact absurd henc hb

/-- A factory pops the class, a word that it knows, and a third word.  What it does
then does not pop. -/
theorem factory_crash (enc : Symbol → Option Nat) (make : Nat → Symbol → PoolProg Int)
    (hmake : ∀ {s t}, enc s = some t → ∀ dims, make t dims ≠ .crash .emptyPop)
    (h : (match pdpTypeToList type with
      | _ :: s :: l =>
          match enc s with
          | none => pure (-1)
          | some t =>
              match l with
              | [] => .crash .emptyPop
              | dims :: _ => make t dims
      | _ => .crash .emptyPop : PoolProg Int) = .crash .emptyPop) :
    (∃ a, pdpTypeToList type = [a]) ∨ ∃ a b, pdpTypeToList type = [a, b] ∧ enc b ≠ none := by
  match hl : pdpTypeToList type with
  | [] => exact absurd hl (pdpTypeToList_ne_nil type)
  | [a] => exact Or.inl ⟨a, rfl⟩
  | [a, b] =>
      refine Or.inr ⟨a, b, rfl, fun hb => ?_⟩
      simp only [hl, hb] at h
      cases h
  | a :: b :: c :: l =>
      cases hb : enc b with
      | none =>
          simp only [hl, hb] at h
          cases h
      | some t =>
          simp only [hl, hb] at h
          exact absurd h (hmake hb c)

theorem imageFactory_crash (h : pdpImageFactory type = .crash .emptyPop) :
    (∃ a, pdpTypeToList type = [a]) ∨
      ∃ a b, pdpTypeToList type = [a, b] ∧ imageEncodingOf b ≠ none := by
  refine factory_crash imageEncodingOf (fun t dims => do
    let p ← imageFactoryNew t dims
    keepExact type p) (fun hs dims h => ?_) h
  rw [imageFactoryNew_eq hs] at h
  cases h

theorem bitmapFactory_crash (h : pdpBitmapFactory type = .crash .emptyPop) :
    (∃ a, pdpTypeToList type = [a]) ∨
      ∃ a b, pdpTypeToList type = [a, b] ∧ bitmapEncodingOf b ≠ none := by
  refine factory_crash bitmapEncodingOf (fun t dims => do
    let p ← pdpPacketNewBitmap t (scannedDim (scanDims 2 dims) 0) (scannedDim (scanDims 2 dims) 1)
    keepExact type p) (fun hs dims h => ?_) h
  rw [pdpPacketNewBitmap_eq hs] at h
  cases h

/-- The name is not given to a factory that pops more words than it has. -/
def NameOk (classes : List PdpClass) (type : Symbol) : Prop :=
  type = symWildcard → ∀ c, classes.find? (·.handles type) = some c →
    c.create ≠ some .pdpImageFactory ∧ c.create ≠ some .pdpBitmapFactory

theorem segments_of_handles {c : PdpClass} {template : Symbol} (hc : c.type = some template)
    (h : c.handles type = true) : SegmentsMatch (pdpTypeToList type) (pdpTypeToList template) := by
  unfold PdpClass.handles at h
  rw [hc] at h
  rwa [pdpTypeToList_eq, pdpTypeToList_eq, ← pdpTypeDescriptionMatch_iff]

theorem crash_iff {classes : List PdpClass} (hclasses : ∀ c ∈ classes, c ∈ registered)
    (type : Symbol) :
    createFromClass classes type = .crash .emptyPop ↔ ¬NameOk classes type := by
  unfold createFromClass NameOk
  cases hfind : classes.find? (·.handles type) with
  | none =>
      refine iff_of_false (fun h => by cases h) (not_not.mpr fun _ c hc => ?_)
      cases hc
  | some c =>
      have hhandles : c.handles type = true := by
        have := List.find?_some hfind
        exact this
      simp only [Option.some.injEq, forall_eq']
      have hmem := hclasses c (List.mem_of_find?_eq_some hfind)
      simp only [registered, List.mem_cons, List.not_mem_nil, or_false] at hmem
      rcases hmem with rfl | rfl | rfl | rfl | rfl
      · show pdpImageFactory type = _ ↔ _
        constructor
        · intro h hok
          have hsegs : SegmentsMatch (pdpTypeToList type) (pdpTypeToList "image/*/*".toList) :=
            segments_of_handles rfl hhandles
          have hname := eq_wildcard_of_short imageEncodingOf (by decide) hsegs (imageFactory_crash h)
          exact (hok hname).1 rfl
        · intro h
          have hname : type = symWildcard := not_not.mp fun hne => h fun he => absurd he hne
          rw [hname]
          rfl
      · show pdpBitmapFactory type = _ ↔ _
        constructor
        · intro h hok
          have hsegs : SegmentsMatch (pdpTypeToList type) (pdpTypeToList "bitmap/*/*".toList) :=
            segments_of_handles rfl hhandles
          have hname := eq_wildcard_of_short bitmapEncodingOf (by decide) hsegs (bitmapFactory_crash h)
          exact (hok hname).2 rfl
        · intro h
          have hname : type = symWildcard := not_not.mp fun hne => h fun he => absurd he hne
          rw [hname]
          rfl
      · exact iff_of_false (fun h => by cases h)
          (not_not.mpr fun _ => ⟨fun h => (by cases h), fun h => (by cases h)⟩)
      · exact iff_of_false (fun h => by cases h)
          (not_not.mpr fun _ => ⟨fun h => (by cases h), fun h => (by cases h)⟩)
      · exact iff_of_false (fun h => by cases h)
          (not_not.mpr fun _ => ⟨fun h => (by cases h), fun h => (by cases h)⟩)

theorem run_createFromClass {classes : List PdpClass} (hclasses : ∀ c ∈ classes, c ∈ registered)
    (s : Pool) :
    (∃ r s', PoolProg.run (createFromClass classes type) s = .ok (r, s') ∧ Answer type r s') ↔
      NameOk classes type ∧ ∀ b, blueprintFor classes type = some b → CanMake b.packetSize s := by
  have hcrash := crash_iff hclasses type
  rcases createFromClass_eq classes type with ⟨b, hb, he⟩ | ⟨hb, he | he⟩
  · have hok : NameOk classes type := by
      by_contra hbad
      rw [← hcrash, he] at hbad
      cases hbad
    rw [he, run_build, hb]
    exact ⟨fun h => ⟨hok, fun b' hb' => Option.some_inj.mp hb' ▸ h⟩, fun h => h.2 b rfl⟩
  · have hok : NameOk classes type := by
      by_contra hbad
      rw [← hcrash, he] at hbad
      cases hbad
    rw [he, hb]
    exact iff_of_true ⟨-1, s, rfl, Or.inl rfl⟩ ⟨hok, fun b h => by cases h⟩
  · rw [he]
    refine iff_of_false (fun ⟨r, s', h, _⟩ => by cases h) fun h => ?_
    exact absurd h.1 (hcrash.mp he)

/-- When a request by name comes to its end. -/
def Answerable (type : Symbol) (s : Pool) : Prop :=
  ∃ found, Walk type s (s.reusefifo type) found ∧
    (found = false → NameOk s.classList type ∧
      ∀ b, blueprintFor s.classList type = some b → CanMake b.packetSize s)

theorem run_newpacket_found {r : Int} {s' : Pool}
    (hreuse : pdpPacketReuse (some type) s = .ok (r, s')) (hr : r ≠ -1) :
    PoolProg.run (pdpFactoryNewpacket (some type)) s = .ok (r, s') := by
  have hexec : PoolOp.exec (.reuse (some type)) s = .ok (r, s') := hreuse
  refine (Prog.run_act_ok hexec).trans ?_
  show Prog.run PoolOp.exec (if r ≠ -1 then _ else _) s' = _
  rw [if_pos hr]
  rfl

theorem run_newpacket_none {s' : Pool} (hreuse : pdpPacketReuse (some type) s = .ok (-1, s')) :
    PoolProg.run (pdpFactoryNewpacket (some type)) s =
      PoolProg.run (createFromClass s'.classList type) s' := by
  have hexec : PoolOp.exec (.reuse (some type)) s = .ok (-1, s') := hreuse
  exact Prog.run_act_ok hexec

/-- In a pool that operations lead to, `pdp_factory_newpacket` answers with -1 or
with a packet of one user whose description is the name, exactly if the request
is answerable. -/
theorem newpacket_answers_iff {classList : List PdpClass} {malloc : Nat → Option (Nat → UInt8)}
    (hs : PlainRun classList malloc s) (hclasses : ∀ c ∈ s.classList, c ∈ registered)
    (type : Symbol) :
    (∃ r s', PoolProg.run (pdpFactoryNewpacket (some type)) s = .ok (r, s') ∧
      Answer type r s') ↔ Answerable type s := by
  have hplain := hs.plain
  have hreuse : ∀ {b r t'}, pdpPacketReuse (some type) s = .ok (r, t') → Walked type s b r t' →
      ((∃ r s', PoolProg.run (pdpFactoryNewpacket (some type)) s = .ok (r, s') ∧
        Answer type r s') ↔
      (b = false → NameOk s.classList type ∧
        ∀ b, blueprintFor s.classList type = some b → CanMake b.packetSize s)) := by
    intro b r t' hrun hwalked
    cases hwalked with
    | none hsame =>
        rw [run_newpacket_none hrun, run_createFromClass (hsame.classList ▸ hclasses),
          hsame.classList]
        simp only [CanMake.same hsame, true_implies]
    | @found _ p d' _ hp hd hm hr =>
        have hne : r ≠ -1 := ne_neg_one_of_header hp
        have hlisted : r ∈ s.reusefifo type := by
          rcases (pdpPacketReuse_spec hrun).2 with ⟨he, _⟩ | ⟨_, _, _, _, _, _, he, _, hmem, _⟩
          · exact absurd he hne
          · cases he
            exact hmem
        have hexact : d' = type :=
          eq_of_match (hplain.desc r p d' hp hd) (hplain.fifo type r hlisted) hm
        subst hexact
        refine iff_of_true ⟨r, t', run_newpacket_found hrun hne, Or.inr ⟨_, hr, rfl, hd⟩⟩ ?_
        intro h
        cases h
  constructor
  · rintro ⟨r, s', hrun, hanswer⟩
    obtain ⟨r₁, s₁, hfirst, _⟩ := Prog.run_act_eq_ok.mp hrun
    obtain ⟨b, hwalk⟩ := walk_of_reuseFrom (.refl s) (d := type) (l := s.reusefifo type) hfirst
    obtain ⟨r₂, s₂, hsecond, hwalked⟩ := reuseFrom_of_walk hwalk (.refl s)
    exact ⟨b, hwalk, (hreuse hsecond hwalked).mp ⟨r, s', hrun, hanswer⟩⟩
  · rintro ⟨b, hwalk, hrest⟩
    obtain ⟨r, s', hrun, hwalked⟩ := reuseFrom_of_walk hwalk (.refl s)
    exact (hreuse hrun hwalked).mpr hrest

end Factory

/-! ## Two requests -/

/-- The pool of a new program with the classes of image and bitmap packets; the
class that is registered last comes first. -/
def newPool : Pool := pdpPacketSetup [bitmapClass, imageClass] zeroHeap

theorem registered_newPool : ∀ c ∈ newPool.classList, c ∈ registered := by
  intro c hc
  simp only [newPool, pdpPacketSetup, List.mem_cons, List.not_mem_nil, or_false] at hc
  simp only [registered, List.mem_cons]
  rcases hc with rfl | rfl
  · exact Or.inr (Or.inl rfl)
  · exact Or.inl rfl

theorem answerable_grey : Answerable "image/grey/1x1".toList newPool := by
  refine ⟨false, .none, fun _ => ⟨fun h => absurd h (by decide), fun b hb => ?_⟩⟩
  have hsize : (blueprintFor newPool.classList "image/grey/1x1".toList).map (·.packetSize) =
      some 2 := by decide
  rw [hb, Option.map_some, Option.some_inj] at hsize
  rw [hsize]
  exact .slot (by decide) fun h => absurd h (by unfold Overruns; decide)

/-- A request for the smallest image is answered. -/
theorem newpacket_answers_grey : Answerable "image/grey/1x1".toList newPool ∧
    ∃ r s', PoolProg.run (pdpFactoryNewpacket (some "image/grey/1x1".toList)) newPool =
      .ok (r, s') ∧ Answer "image/grey/1x1".toList r s' :=
  ⟨answerable_grey,
    (newpacket_answers_iff .setup registered_newPool "image/grey/1x1".toList).mpr answerable_grey⟩

/-- A request for anything is not. -/
theorem newpacket_wildcard : PlainRun [bitmapClass, imageClass] zeroHeap newPool ∧
    PoolProg.run (pdpFactoryNewpacket (some symWildcard)) newPool = .error .emptyPop ∧
    ¬∃ r s', PoolProg.run (pdpFactoryNewpacket (some symWildcard)) newPool = .ok (r, s') ∧
      Answer symWildcard r s' := by
  have hrun : PoolProg.run (pdpFactoryNewpacket (some symWildcard)) newPool = .error .emptyPop :=
    rfl
  refine ⟨.setup, hrun, fun ⟨r, s', h, _⟩ => ?_⟩
  rw [hrun] at h
  cases h

end PureDataPacket
