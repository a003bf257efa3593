/-
# `PureDataPacket.Kernel.Clients` — runs of many clients

A client makes one call after another; the calls of all clients interleave.
`Reaches` is the set of worlds that can come of it.  The calls made of several
pool operations are programs, so this file first shows that each of them stays
within the guard of `Ownership` when it is given a handle its client owns, and
what it gives back.

`Ensures` is a triple for these programs.  There is one rule for an operation
and one for a sequence, and every program is put together from the two.

| | |
| :-- | :-- |
| `Ensures` | client `c` may run `p` from `w`, and where it ends `Q` holds |
| `Reaches` | the worlds that a sequence of calls can lead to |
| `ensures_act` | any operation: what it may be asked for, and the books afterwards |
| `ensures_call` | a legal call stays within the guard and keeps the books |
| `Reaches.inv` | what every admitted call preserves holds in every reachable world |
| `WellOwned` | what clients rely on |
-/
import PureDataPacket.Kernel.Ownership

namespace PureDataPacket

open Pool World

variable {C : Type} [DecidableEq C] {c : C} {α β : Type}

/-! ## Programs of one client -/

/-- Client `c` may run `p` from `w`, and where it ends `Q` holds. -/
def Ensures (c : C) (p : PoolProg α) (Q : α → World C → Prop) (w : World C) : Prop :=
  p.wp (World.exec c) (Guarded c) Q w

theorem ensures_done {a : α} {Q : α → World C → Prop} {w : World C} (h : Q a w) :
    Ensures c (.done a) Q w := h

theorem ensures_crash {e : Fault} {Q : α → World C → Prop} {w : World C} :
    Ensures c (.crash e : PoolProg α) Q w := trivial

theorem ensures_bind {p : PoolProg α} {f : α → PoolProg β} {Q : α → World C → Prop}
    {Q' : β → World C → Prop} {w : World C} (h : Ensures c p Q w)
    (hf : ∀ a w', Q a w' → Ensures c (f a) Q' w') : Ensures c (p.bind f) Q' w :=
  (Prog.wp_bind p f Q' w).mpr (Prog.wp_mono (fun _ _ => id) hf h)

theorem ensures_mono {p : PoolProg α} {Q Q' : α → World C → Prop} {w : World C}
    (h : Ensures c p Q w) (hQ : ∀ a w', Q a w' → Q' a w') : Ensures c p Q' w :=
  Prog.wp_mono (fun _ _ => id) hQ h

theorem ensures_act {o : PoolOp} {k : o.Answer → PoolProg α} {Q : α → World C → Prop}
    {w : World C} (ha : Accounted w) (hg : Guarded c w o)
    (hk : ∀ r w', Accounted w' → o.exec w.pool = .ok (r, w'.pool) →
      w'.refs = account c o r w.refs → Ensures c (k r) Q w') :
    Ensures c (.act o k) Q w := by
  refine (Prog.wp_act o k Q w).mpr ⟨hg, fun r w' he => ?_⟩
  obtain ⟨hp, hr⟩ := exec_eq_ok he
  exact hk r w' (ha.step hg he) hp hr

theorem ensures_read {o : PoolOp} {k : o.Answer → PoolProg α} {Q : α → World C → Prop}
    {w : World C} {r : o.Answer} (hg : Guarded c w o) (he : World.exec c o w = .ok (r, w))
    (hk : Ensures c (k r) Q w) : Ensures c (.act o k) Q w := by
  refine (Prog.wp_act o k Q w).mpr ⟨hg, fun r' w' he' => ?_⟩
  cases he.symm.trans he'
  exact hk

theorem ensures_header {h : Int} {k : Option Packet → PoolProg α} {Q : α → World C → Prop}
    {w : World C} (hk : Ensures c (k (w.pool.pdpPacketHeader h)) Q w) :
    Ensures c (.act (.header h) k) Q w :=
  ensures_read ⟨trivial, trivial⟩ rfl hk

theorem ensures_classes {k : List PdpClass → PoolProg α} {Q : α → World C → Prop}
    {w : World C} (hk : Ensures c (k w.pool.classList) Q w) :
    Ensures c (.act .classes k) Q w :=
  ensures_read ⟨trivial, trivial⟩ rfl hk

theorem ensures_new {t n : Nat} {k : Int → PoolProg α} {Q : α → World C → Prop} {w : World C}
    (ha : Accounted w) (hk : ∀ r w', GivesSole c w r w' → Ensures c (k r) Q w') :
    Ensures c (.act (.new t n) k) Q w :=
  ensures_act ha ⟨trivial, trivial⟩ fun r w' _ he hr =>
    hk r w' (.of_handsOut ha (pdpPacketNew_spec he) hr)

theorem ensures_create {t n : Nat} {k : Int → PoolProg α} {Q : α → World C → Prop} {w : World C}
    (ha : Accounted w) (hk : ∀ r w', GivesSole c w r w' → Ensures c (k r) Q w') :
    Ensures c (.act (.create t n) k) Q w :=
  ensures_act ha ⟨trivial, trivial⟩ fun r w' _ he hr =>
    hk r w' (.of_handsOut ha ((pdpPacketCreate_spec he).imp_right And.right) hr)

theorem ensures_reuse {d : Option Symbol} {k : Int → PoolProg α} {Q : α → World C → Prop}
    {w : World C} (ha : Accounted w) (hk : ∀ r w', GivesSole c w r w' → Ensures c (k r) Q w') :
    Ensures c (.act (.reuse d) k) Q w :=
  ensures_act ha ⟨trivial, trivial⟩ fun r w' _ he hr => hk r w' (.of_reuse ha he hr)

/-! ## Packets in the making -/

theorem ne_neg_one_of_header {s : Pool} {h : Int} {p : Packet}
    (hp : s.pdpPacketHeader h = some p) : h ≠ -1 := by
  have := (lt_of_header hp).1
  omega

theorem ensures_writeHeader {w w₁ : World C} {r : Int} {m : Meta} {k : Unit → PoolProg α}
    {Q : α → World C → Prop} (hg : GivesSole c w r w₁) (hr : r ≠ -1)
    (hk : ∀ w₂, GivesSole c w r w₂ → Ensures c (k ()) Q w₂) :
    Ensures c (.act (.writeHeader r m) k) Q w₁ := by
  refine ensures_act hg.accounted ⟨hg.mem hr, trivial⟩ fun _ w₂ ha he hrefs => hk w₂ ?_
  obtain ⟨p, hp, hputs⟩ := writeHeader_spec (PoolOp.effect_eq_ok he)
  obtain ⟨q, hq, hu⟩ := hg.sole hr
  cases hp.symm.trans hq
  exact ⟨⟨ha, hrefs.trans hg.refs, hg.fresh⟩, fun _ => ⟨_, hputs.self, hu⟩⟩

theorem ensures_construct {t n : Nat} {init : Meta → Meta} {w : World C} (ha : Accounted w) :
    Ensures c (construct t n init) (GivesSole c w) w := by
  refine ensures_new ha fun r w₁ hg => ensures_header ?_
  cases hp : w₁.pool.pdpPacketHeader r with
  | none =>
      have hr : r = -1 := by
        by_contra hne
        obtain ⟨p, hq, _⟩ := hg.sole hne
        cases hp.symm.trans hq
      exact ensures_done (hr ▸ hg)
  | some p => exact ensures_writeHeader hg (ne_neg_one_of_header hp) fun w₂ hg₂ => hg₂

theorem ensures_newImage {t x y : Nat} {w : World C} (ha : Accounted w) :
    Ensures c (pdpPacketNewImage t x y) (GivesSole c w) w := by
  unfold pdpPacketNewImage
  split
  · exact ensures_construct ha
  · split
    · exact ensures_construct ha
    · exact ensures_done (.none ha)

theorem ensures_newBitmapI420 {x y : Nat} {w : World C} (ha : Accounted w) :
    Ensures c (pdpPacketNewBitmapI420 x y) (GivesSole c w) w := by
  refine ensures_bind (ensures_construct ha) fun r w₁ hg => ?_
  by_cases hr : r = -1
  · rw [if_pos hr]
    exact ensures_done (hr ▸ hg)
  · rw [if_neg hr]
    refine ensures_header ?_
    cases w₁.pool.pdpPacketHeader r with
    | none => exact ensures_crash
    | some p => exact ensures_writeHeader hg hr fun w₂ hg₂ => hg₂

theorem ensures_newBitmap {t x y : Nat} {w : World C} (ha : Accounted w) :
    Ensures c (pdpPacketNewBitmap t x y) (GivesSole c w) w := by
  unfold pdpPacketNewBitmap
  split
  · exact ensures_construct ha
  split
  · exact ensures_construct ha
  split
  · exact ensures_newBitmapI420 ha
  split
  · exact ensures_construct ha
  split
  · exact ensures_construct ha
  · exact ensures_done (.none ha)

/-! ## Factories -/

theorem ensures_keepExact {type : Symbol} {w w₁ : World C} {p : Int} (hg : GivesSole c w p w₁) :
    Ensures c (keepExact type p) (GivesSole c w) w₁ := by
  unfold keepExact
  by_cases hp : p = -1
  · rw [if_pos hp]
    exact ensures_done (hp ▸ hg)
  · rw [if_neg hp]
    refine ensures_header ?_
    cases w₁.pool.pdpPacketHeader p with
    | none => exact ensures_crash
    | some header =>
        show Ensures c (if some type ≠ header.desc then _ else _) _ _
        split
        · refine ensures_act hg.accounted ⟨⟨hg.mem hp, hg.sole hp⟩, trivial⟩
            fun _ w₂ ha he hr => ensures_done ?_
          have hr' : w₂.refs = w.refs := by
            rw [hr, account, hg.refs_eq hp, List.erase_cons_head]
          refine ⟨⟨ha, ?_, fun h => absurd rfl h⟩, fun h => absurd rfl h⟩
          rw [hr', receive, if_pos rfl]
        · exact ensures_done hg

theorem ensures_imageFactory {type : Symbol} {w : World C} (ha : Accounted w) :
    Ensures c (pdpImageFactory type) (GivesSole c w) w := by
  unfold pdpImageFactory
  split
  · split
    · exact ensures_done (.none ha)
    · split
      · exact ensures_crash
      · refine ensures_bind (Q := GivesSole c w) ?_ fun p w₁ hg => ensures_keepExact hg
        unfold imageFactoryNew
        split
        · exact ensures_construct ha
        · exact ensures_newImage ha
  · exact ensures_crash

theorem ensures_bitmapFactory {type : Symbol} {w : World C} (ha : Accounted w) :
    Ensures c (pdpBitmapFactory type) (GivesSole c w) w := by
  unfold pdpBitmapFactory
  split
  · split
    · exact ensures_done (.none ha)
    · split
      · exact ensures_crash
      · exact ensures_bind (ensures_newBitmap ha) fun p w₁ hg => ensures_keepExact hg
  · exact ensures_crash

theorem ensures_createFromClass {classes : List PdpClass} {type : Symbol} {w : World C}
    (ha : Accounted w) : Ensures c (createFromClass classes type) (GivesSole c w) w := by
  unfold createFromClass
  split
  · exact ensures_done (.none ha)
  · split
    · next create _ =>
        cases create with
        | pdpImageFactory => exact ensures_imageFactory ha
        | pdpBitmapFactory => exact ensures_bitmapFactory ha
        | pdpMatrixFactory => exact ensures_done (.none ha)
    · exact ensures_done (.none ha)

theorem ensures_newpacket {type : Option Symbol} {w : World C} (ha : Accounted w) :
    Ensures c (pdpFactoryNewpacket type) (GivesSole c w) w := by
  refine ensures_reuse ha fun r w₁ hg => ?_
  by_cases hr : r = -1
  · subst hr
    refine ensures_classes ?_
    cases type with
    | none =>
        show Ensures c (if _ then _ else _) _ _
        split
        · exact ensures_crash
        · exact ensures_done hg
    | some type =>
        exact ensures_mono (ensures_createFromClass hg.accounted) fun _ _ h => hg.of_none h
  · show Ensures c (if r ≠ -1 then _ else _) _ _
    rw [if_pos hr]
    exact ensures_done hg

/-! ## Clones and copies -/

theorem ensures_cloneManually {h : Int} {w : World C} (ha : Accounted w) (ho : 0 < w.owned h) :
    Ensures c (cloneManually h) (Gives c w) w := by
  refine ensures_header ?_
  cases w.pool.pdpPacketHeader h with
  | none => exact ensures_crash
  | some p =>
      refine ensures_new ha fun r w₁ hg => ensures_header ?_
      cases hq : w₁.pool.pdpPacketHeader r with
      | none => exact ensures_done hg.toGives
      | some q =>
          have hr := ne_neg_one_of_header hq
          have hd : w₁.owned r = 1 := by
            rw [owned_cons (hg.refs_eq hr), hg.fresh hr, if_pos rfl]
          have hs : 0 < w₁.owned h := by
            rw [owned_cons (hg.refs_eq hr)]
            omega
          refine ensures_act hg.accounted ⟨⟨hd, hs⟩, trivial⟩
            fun _ w₂ ha₂ _ hrefs => ensures_done ⟨ha₂, hrefs.trans hg.refs, hg.fresh⟩

theorem ensures_cloneRw {h : Int} {w : World C} (ha : Accounted w) (ho : 0 < w.owned h) :
    Ensures c (pdpPacketCloneRw h) (Gives c w) w := by
  refine ensures_header ?_
  cases w.pool.pdpPacketHeader h with
  | none => exact ensures_done (GivesSole.none ha).toGives
  | some p =>
      refine ensures_reuse ha fun r w₁ hg => ?_
      show Ensures c (if r ≠ -1 then _ else _) _ _
      split
      · exact ensures_done hg.toGives
      · next hr =>
          simp only [ne_eq, not_not] at hr
          subst hr
          refine ensures_bind (ensures_newpacket hg.accounted) fun r₂ w₂ hg₂ => ?_
          have hg₂ := hg.of_none hg₂
          split
          · exact ensures_done hg₂.toGives
          · next hr₂ =>
              simp only [ne_eq, not_not] at hr₂
              subst hr₂
              have ho₂ : 0 < w₂.owned h := by
                rw [owned_of_refs (w := w) (by rw [hg₂.refs, receive, if_pos rfl])]
                exact ho
              exact ensures_mono (ensures_cloneManually hg₂.accounted ho₂)
                fun _ _ hg₃ => hg₂.toGives.of_none hg₃

theorem ensures_copyContents {h r : Int} {w w₁ : World C} (hg : Gives c w r w₁) (hr : r ≠ -1) :
    Ensures c (copyContents h r) (Gives c w) w₁ := by
  refine ensures_header ?_
  cases w₁.pool.pdpPacketHeader h with
  | none => exact ensures_crash
  | some header =>
      show Ensures c (copyByClass r header) _ _
      unfold copyByClass
      cases header.theclass.bind (·.copy) with
      | none =>
          exact ensures_act hg.accounted ⟨hg.mem hr, trivial⟩
            fun _ w₂ ha₂ _ hrefs => ensures_done ⟨ha₂, hrefs.trans hg.refs, hg.fresh⟩
      | some copy =>
          cases copy with
          | pdpMatrixCopy => exact ensures_crash
          | pdpTexCopy => exact ensures_done hg
          | threeDcontextCopy => exact ensures_done hg

theorem ensures_copyRw {h : Int} {w : World C} (ha : Accounted w) (ho : 0 < w.owned h) :
    Ensures c (pdpPacketCopyRw h) (Gives c w) w := by
  refine ensures_header ?_
  cases w.pool.pdpPacketHeader h with
  | none => exact ensures_done (GivesSole.none ha).toGives
  | some p =>
      show Ensures c (if _ then _ else _) _ _
      split
      · exact ensures_done (GivesSole.none ha).toGives
      · refine ensures_bind (ensures_cloneRw ha ho) fun r w₁ hg => ?_
        split
        · next hr => exact ensures_done (hr ▸ hg)
        · next hr => exact ensures_copyContents hg hr

theorem ensures_replaceWithWritable {h : Int} {w : World C} (ha : Accounted w)
    (hm : (c, h) ∈ w.refs) :
    Ensures c (pdpPacketReplaceWithWritable h) (fun _ w' => Accounted w') w := by
  refine ensures_header ?_
  show Ensures c (if _ then _ else _) _ _
  split
  · exact ensures_done ha
  · refine ensures_bind (ensures_copyRw ha (owned_pos hm)) fun r w₁ hg => ?_
    exact ensures_act hg.accounted ⟨hg.mem_of_mem hm, trivial⟩ fun _ w₂ ha₂ _ _ => ensures_done ha₂

/-! ## Calls -/

/-- What a client can call.  The constructors are `pdp_packet_new_image` and
its like; `writeHeader` and `writeData` are assignments through a header or
data pointer. -/
inductive Call where
  | create (datatype datasize : Nat)
  | new (datatype datasize : Nat)
  | reuse (typeDescription : Option Symbol)
  | copyRo (handle : Int)
  | cloneRw (handle : Int)
  | copyRw (handle : Int)
  | replaceWithWritable (packet : Int)
  | markUnused (handle : Int)
  | delete (handle : Int)
  | newpacket (type : Option Symbol)
  | newImage (type w h : Nat)
  | newImageMchp (w h d : Nat)
  | newBitmap (type w h : Nat)
  | writeHeader (handle : Int) (m : Meta)
  | writeData (handle : Int) (bytes : List UInt8)

namespace Call

open PoolProg (call)

/-- The program of a call.  The calls that return nothing return -1 here. -/
def prog : Call → PoolProg Int
  | create t n => call (.create t n)
  | new t n => call (.new t n)
  | reuse d => call (.reuse d)
  | copyRo h => call (.copyRo h)
  | cloneRw h => pdpPacketCloneRw h
  | copyRw h => pdpPacketCopyRw h
  | replaceWithWritable h => pdpPacketReplaceWithWritable h
  | markUnused h => do
      call (.markUnused h)
      pure (-1)
  | delete h => do
      call (.delete h)
      pure (-1)
  | newpacket type => pdpFactoryNewpacket type
  | newImage t w h => pdpPacketNewImage t w h
  | newImageMchp w h d => pdpPacketNewImageMchp w h d
  | newBitmap t w h => pdpPacketNewBitmap t w h
  | writeHeader h m => do
      call (.writeHeader h m)
      pure (-1)
  | writeData h l => do
      call (.memcpyData h l)
      pure (-1)

/-- The call is made by client `c`. -/
def run (c : C) (a : Call) (w : World C) : Except Fault (Int × World C) :=
  Prog.run (World.exec c) a.prog w

/-- The client passes only a handle it owns, and deletes only what it is the
last user of. -/
def Legal (c : C) (w : World C) : Call → Prop
  | copyRo h => (c, h) ∈ w.refs
  | cloneRw h => (c, h) ∈ w.refs
  | copyRw h => (c, h) ∈ w.refs
  | replaceWithWritable h => (c, h) ∈ w.refs
  | markUnused h => (c, h) ∈ w.refs
  | delete h => (c, h) ∈ w.refs ∧ ∃ p, w.pool.pdpPacketHeader h = some p ∧ p.users = 1
  | writeHeader h _ => (c, h) ∈ w.refs
  | writeData h _ => (c, h) ∈ w.refs
  | _ => True

/-- The call does not take a counter from `2 ^ 32 - 1` to 0. -/
def NoWrap (s : Pool) : Call → Prop
  | copyRo h => ∀ p, s.pdpPacketHeader h = some p → p.users ≠ 2 ^ 32 - 1
  | _ => True

/-- The call hands out a packet that was not in use. -/
def HandsOutFresh : Call → Prop
  | copyRo _ => False
  | replaceWithWritable _ => False
  | markUnused _ => False
  | delete _ => False
  | writeHeader _ _ => False
  | writeData _ _ => False
  | _ => True

end Call

/-- Only a `pdp_packet_copy_ro` can wrap. -/
theorem Call.noWrap_of_fresh {a : Call} (hf : a.HandsOutFresh) (s : Pool) : a.NoWrap s := by
  cases a with
  | copyRo h => exact hf.elim
  | _ => trivial

theorem ensures_call {a : Call} {w : World C} (ha : Accounted w) (hl : a.Legal c w)
    (hw : a.NoWrap w.pool) :
    Ensures c a.prog (fun r w' => Accounted w' ∧ (a.HandsOutFresh → Gives c w r w')) w := by
  have gives : ∀ {p : PoolProg Int}, Ensures c p (GivesSole c w) w →
      Ensures c p (fun r w' => Accounted w' ∧ (a.HandsOutFresh → Gives c w r w')) w :=
    fun h => ensures_mono h fun _ _ hg => ⟨hg.accounted, fun _ => hg.toGives⟩
  have keeps : ∀ {o : PoolOp} {k : o.Answer → PoolProg Int}, Guarded c w o → ¬ a.HandsOutFresh →
      (∀ r, ∃ x, k r = .done x) →
      Ensures c (.act o k) (fun r w' => Accounted w' ∧ (a.HandsOutFresh → Gives c w r w')) w := by
    intro o k hg hf hk
    refine ensures_act ha hg fun r w' ha' _ _ => ?_
    obtain ⟨x, hx⟩ := hk r
    rw [hx]
    exact ensures_done ⟨ha', fun h => absurd h hf⟩
  cases a with
  | create t n => exact gives (ensures_create ha fun r w' hg => ensures_done hg)
  | new t n => exact gives (ensures_new ha fun r w' hg => ensures_done hg)
  | reuse d => exact gives (ensures_reuse ha fun r w' hg => ensures_done hg)
  | newpacket type => exact gives (ensures_newpacket ha)
  | newImage t x y => exact gives (ensures_newImage ha)
  | newImageMchp x y d => exact gives (ensures_construct ha)
  | newBitmap t x y => exact gives (ensures_newBitmap ha)
  | cloneRw h =>
      exact ensures_mono (ensures_cloneRw ha (owned_pos hl)) fun _ _ hg => ⟨hg.accounted, fun _ => hg⟩
  | copyRw h =>
      exact ensures_mono (ensures_copyRw ha (owned_pos hl)) fun _ _ hg => ⟨hg.accounted, fun _ => hg⟩
  | replaceWithWritable h =>
      exact ensures_mono (ensures_replaceWithWritable ha hl) fun _ _ ha' => ⟨ha', False.elim⟩
  | copyRo h => exact keeps ⟨hl, hw⟩ id fun r => ⟨r, rfl⟩
  | markUnused h => exact keeps ⟨hl, trivial⟩ id fun _ => ⟨-1, rfl⟩
  | delete h => exact keeps ⟨hl, trivial⟩ id fun _ => ⟨-1, rfl⟩
  | writeHeader h m => exact keeps ⟨hl, trivial⟩ id fun _ => ⟨-1, rfl⟩
  | writeData h l => exact keeps ⟨hl, trivial⟩ id fun _ => ⟨-1, rfl⟩

/-! ## Runs -/

/-- The worlds that a sequence of calls can lead to, when each call is one
that `ok` admits where it is made. -/
inductive Reaches (ok : C → World C → Call → Prop) (start : World C) : World C → Prop
  | refl : Reaches ok start start
  | step {w w' : World C} {r : Int} (c : C) (a : Call) (hw : Reaches ok start w) (ha : ok c w a)
      (hr : a.run c w = .ok (r, w')) : Reaches ok start w'

theorem Reaches.inv {ok : C → World C → Call → Prop} {start w : World C} {I : World C → Prop}
    (h : Reaches ok start w) (h₀ : I start)
    (step : ∀ c a w w' r, I w → ok c w a → a.run c w = .ok (r, w') → I w') : I w := by
  induction h with
  | refl => exact h₀
  | step c a _ ha hr ih => exact step c a _ _ _ ih ha hr

/-- The calls of legal clients that wrap no counter. -/
def LegalNoWrap (c : C) (w : World C) (a : Call) : Prop := a.Legal c w ∧ a.NoWrap w.pool

theorem Reaches.accounted {classList : List PdpClass} {malloc : Nat → Option (Nat → UInt8)}
    {w : World C} (h : Reaches LegalNoWrap (World.init C classList malloc) w) : Accounted w :=
  h.inv (Accounted.init classList malloc) fun _ _ _ _ _ ha hok hr =>
    (Prog.post_of_wp (ensures_call ha hok.1 hok.2) hr).1

/-- What clients rely on: a packet that somebody owns is live, with as many
users as owners, and no call hands it out again. -/
structure WellOwned (w : World C) : Prop where
  live : ∀ h, 0 < w.owned h → ∃ p, w.pool.pdpPacketHeader h = some p ∧ w.owned h ≤ p.users
  fresh : ∀ (c : C) (a : Call) (r : Int) (w' : World C), a.Legal c w → a.HandsOutFresh →
    a.run c w = .ok (r, w') → r ≠ -1 → w.owned r = 0

/-- In every run of legal clients in which no counter wraps, every world is
well owned. -/
theorem reachable_wellOwned (classList : List PdpClass) (malloc : Nat → Option (Nat → UInt8))
    (w : World C) (h : Reaches LegalNoWrap (World.init C classList malloc) w) : WellOwned w where
  live := h.accounted.covered
  fresh c a r w' hl hf hr hne := by
    have hpost := Prog.post_of_wp (ensures_call h.accounted hl (Call.noWrap_of_fresh hf _)) hr
    exact (hpost.2 hf).fresh hne

def zeroHeap : Nat → Option (Nat → UInt8) := fun _ => some fun _ => 0

theorem reachable_wellOwned_once : ∃ w : World Unit, w.refs = [((), 0)] ∧
    (w.pool.pdpPacketHeader 0).map Packet.users = some 1 ∧ WellOwned w := by
  -- one copy of the packet is made and released again
  have hcopied : Reaches LegalNoWrap (World.init Unit [] zeroHeap) _ :=
    .step () (.copyRo 0) (.step () (.new 0 16) .refl ⟨trivial, trivial⟩ rfl)
      ⟨List.mem_cons_self, fun p hp => by cases hp; decide⟩ rfl
  have hreleased : Reaches LegalNoWrap (World.init Unit [] zeroHeap) _ :=
    .step () (.markUnused 0) hcopied ⟨List.mem_cons_self, trivial⟩ rfl
  exact ⟨_, rfl, rfl, reachable_wellOwned [] zeroHeap _ hreleased⟩

/-! ## The counter wraps

A client that keeps asking for read-only copies of one packet meets no check:
the `2 ^ 32 - 1`st copy takes `users` to 0. -/

theorem run_copyRo {c : C} {w : World C} {h : Int} {p : Packet}
    (hp : w.pool.pdpPacketHeader h = some p) :
    (Call.copyRo h).run c w = .ok (h,
      ⟨w.pool.put h (some { p with users := u32 (p.users + 1) }), (c, h) :: w.refs⟩) := by
  have hne := ne_neg_one_of_header hp
  show Prog.run (World.exec c) (.act (.copyRo h) .done) w = _
  rw [Prog.run_act]
  simp only [World.exec, PoolOp.exec, pdpPacketCopyRo_eq hp, account, receive, if_neg hne,
    Prog.run_done]

/-- `n` more copies of a packet by a client that owns it, and nothing else. -/
theorem reaches_copies {start w₀ : World C} {c : C} {h : Int} {p : Packet}
    (hw₀ : Reaches (fun c w a => a.Legal c w) start w₀) (hm₀ : (c, h) ∈ w₀.refs)
    (hp₀ : w₀.pool.pdpPacketHeader h = some p) (hu₀ : p.users < 2 ^ 32) (n : Nat) :
    ∃ w : World C, Reaches (fun c w a => a.Legal c w) start w ∧ (c, h) ∈ w.refs ∧
      w.pool.pdpPacketHeader h = some { p with users := u32 (p.users + n) } ∧
      w.owned h = w₀.owned h + n ∧ w.pool.reusefifo = w₀.pool.reusefifo := by
  induction n with
  | zero => exact ⟨w₀, hw₀, hm₀, by rw [Nat.add_zero, u32_eq_self hu₀, hp₀], rfl, rfl⟩
  | succ n ih =>
      obtain ⟨w, hw, hm, hp, ho, hf⟩ := ih
      have hu : u32 (u32 (p.users + n) + 1) = u32 (p.users + (n + 1)) := by
        unfold u32
        omega
      refine ⟨_, .step c (.copyRo h) hw hm (run_copyRo hp), List.mem_cons_self, ?_, ?_, hf⟩
      · rw [(puts_of_header hp _).self]
        simp only [hu]
      · rw [owned_cons (w := w) rfl, ho, if_pos rfl]
        omega

/-- A new packet that its owner copies `2 ^ 32 - 1` times has no users left. -/
theorem copies_not_wellOwned :
    ¬ ∀ w : World Unit, Reaches (fun c w a => a.Legal c w) (World.init Unit [] zeroHeap) w →
      WellOwned w := by
  intro hall
  have hw₀ : Reaches (fun c w a => a.Legal c w) (World.init Unit [] zeroHeap) _ :=
    .step () (.new 0 16) .refl trivial rfl
  obtain ⟨w, hw, _, hp, ho, _⟩ :=
    reaches_copies (h := 0) hw₀ (List.mem_cons_self) rfl (by decide) (2 ^ 32 - 1)
  obtain ⟨q, hq, hle⟩ := (hall w hw).live 0 (by omega)
  cases hp.symm.trans hq
  have h0 : u32 (1 + (2 ^ 32 - 1)) = 0 := by decide
  exact absurd hle (by simp only [Packet.fresh, h0, ho]; omega)

end PureDataPacket
