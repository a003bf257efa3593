/-
# `PureDataPacket.Scaf.Clones` — clones of automata

An automaton is cloned by its description, so a clone has the dimensions of the
original because a description tells them, and because every packet that has the
description of an automaton is one.  `SoundPool` says that of a pool.

| | |
| :-- | :-- |
| `IsAutomaton` | the header of an automaton of `w` times `h` cells |
| `Honest` | automata have their description and nothing else has it |
| `SoundPool` | packets are honest, fifos hold packets, and no class makes automata |
| `Spends` | at most `n` calls of `malloc` are made |
| `NewCa` | an automaton that was not in use |
| `ends_cloneRw_ca` | a clone has the dimensions of the original |
-/
import PureDataPacket.Kernel.Newpacket
import PureDataPacket.Lib.Strtol
import PureDataPacket.Scaf.Packets

namespace PureDataPacket

open Pool PoolProg

/-! ## Descriptions -/

section Descriptions

/-- What `pdp_packet_ca_get_description` says of an automaton. -/
def caDescription (w h : Nat) : Symbol := "ca/1bit2D/".toList ++ printDim w ++ 'x' :: printDim h

theorem not_mem_printDim {n : Nat} : 'x' ∉ printDim n ∧ '/' ∉ printDim n := by
  refine ⟨fun h => ?_, fun h => ?_⟩
  · exact absurd (printInt_chars h) (by decide)
  · exact absurd (printInt_chars h) (by decide)

theorem printDim_inj {m n : Nat} (hm : m < 2 ^ 32) (hn : n < 2 ^ 32) (h : printDim m = printDim n) :
    m = n := by
  have hm' := strtol_printInt (isInt_toInt32 m)
  have hn' := strtol_printInt (isInt_toInt32 n)
  unfold printDim at h
  rw [h, hn'] at hm'
  have heq := (Prod.mk.inj hm').1
  rw [toInt32_eq, toInt32_eq] at heq
  split at heq <;> split at heq <;> omega

/-- What is in front of the first `x`, and what is behind it. -/
theorem append_x_inj {a b a' b' : List Char} (ha : 'x' ∉ a) (ha' : 'x' ∉ a')
    (h : a ++ 'x' :: b = a' ++ 'x' :: b') : a = a' ∧ b = b' := by
  have htake : ∀ {s t : List Char}, 'x' ∉ s → (s ++ 'x' :: t).takeWhile (· ≠ 'x') = s := by
    intro s t hs
    have hall : ∀ c ∈ s, decide (c ≠ 'x') = true := fun c hc =>
      decide_eq_true fun he => hs (he ▸ hc)
    rw [List.takeWhile_append_of_pos hall]
    simp
  have heq : a = a' := by rw [← htake (t := b) ha, h, htake ha']
  subst heq
  exact ⟨rfl, (List.cons.inj (List.append_cancel_left h)).2⟩

theorem caDescription_inj {w h w' h' : Nat} (hw : w < 2 ^ 32) (hh : h < 2 ^ 32) (hw' : w' < 2 ^ 32)
    (hh' : h' < 2 ^ 32) (heq : caDescription w h = caDescription w' h') : w = w' ∧ h = h' := by
  unfold caDescription at heq
  rw [List.append_assoc, List.append_assoc] at heq
  obtain ⟨hdw, hdh⟩ := append_x_inj not_mem_printDim.1 not_mem_printDim.1
    (List.append_cancel_left heq)
  exact ⟨printDim_inj hw hw' hdw, printDim_inj hh hh' hdh⟩

theorem typeToListFrom_last (word last : List Char) (hword : '/' ∉ word) :
    typeToListFrom word last = [last ++ word] := by
  induction word generalizing last with
  | nil => rw [typeToListFrom, List.append_nil]
  | cons c word ih =>
      obtain ⟨hc, hword⟩ := not_or.mp (List.mem_cons.not.mp hword)
      rw [typeToListFrom, if_neg (Ne.symm hc), ih _ hword, List.append_assoc, List.singleton_append]

theorem plain_caDescription (w h : Nat) : Plain (caDescription w h) := by
  have hdims : '/' ∉ printDim w ++ 'x' :: printDim h := by
    intro hm
    rcases List.mem_append.mp hm with hm | hm
    · exact not_mem_printDim.2 hm
    · rcases List.mem_cons.mp hm with hm | hm
      · exact absurd hm (by decide)
      · exact not_mem_printDim.2 hm
  have hsplit : caDescription w h =
      "ca".toList ++ '/' :: ("1bit2D".toList ++ '/' :: (printDim w ++ 'x' :: printDim h)) := by
    calc caDescription w h
      _ = "ca/1bit2D/".toList ++ (printDim w ++ 'x' :: printDim h) := List.append_assoc _ _ _
      _ = ("ca".toList ++ '/' :: ("1bit2D".toList ++ ['/'])) ++
          (printDim w ++ 'x' :: printDim h) := congrArg (· ++ _) rfl
      _ = _ := by simp only [List.append_assoc, List.cons_append, List.nil_append]
  have hwords : pdpTypeToList (caDescription w h) =
      ["ca".toList, "1bit2D".toList, printDim w ++ 'x' :: printDim h] := by
    unfold pdpTypeToList
    rw [hsplit, typeToListFrom_word _ _ _ (by decide), typeToListFrom_word _ _ _ (by decide),
      typeToListFrom_last _ _ hdims, List.nil_append, List.nil_append, List.nil_append]
  have hx : 'x' ∉ symWildcard := by decide
  have hca : symWildcard ≠ "ca".toList := by decide
  have h2d : symWildcard ≠ "1bit2D".toList := by decide
  unfold Plain
  rw [hwords]
  simp only [List.mem_cons, List.not_mem_nil, or_false, not_or]
  refine ⟨hca, h2d, fun hm => hx ?_⟩
  rw [hm]
  exact List.mem_append_right _ List.mem_cons_self

end Descriptions

/-! ## Pools in which descriptions are true -/

section Sound

/-- The header of an automaton of `w` times `h` cells. -/
structure IsAutomaton (m : Meta) (w h : Nat) : Prop where
  type : m.type = pdpCa
  encoding : m.info.encoding = pdpCaStandard
  width : m.info.width = w
  height : m.info.height = h
  width_lt : w < 2 ^ 32
  height_lt : h < 2 ^ 32
  desc : m.desc = some (caDescription w h)

/-- An automaton has its description, and what has the description of an automaton is
one. -/
structure Honest (m : Meta) : Prop where
  typed : m.type = pdpCa → m.info.encoding = pdpCaStandard →
    IsAutomaton m m.info.width m.info.height
  described : ∀ d w h, m.desc = some d → w < 2 ^ 32 → h < 2 ^ 32 →
    pdpTypeDescriptionMatch d (caDescription w h) = true → IsAutomaton m w h

/-- Packets are honest, fifos hold packets, and no class makes automata. -/
structure SoundPool (s : Pool) : Prop where
  fifo : ∀ d x, x ∈ s.reusefifo d → s.pdpPacketHeader x ≠ none
  honest : ∀ x q, s.pdpPacketHeader x = some q → Honest q.toMeta
  classes : ∀ c ∈ s.classList, ∀ w h, c.handles (caDescription w h) = false

theorem IsAutomaton.honest {m : Meta} {w h : Nat} (hm : IsAutomaton m w h) : Honest m where
  typed _ _ := by
    rw [hm.width, hm.height]
    exact hm
  described d w' h' hd hw' hh' hmatch := by
    obtain rfl : caDescription w h = d := Option.some.inj (hm.desc.symm.trans hd)
    obtain ⟨rfl, rfl⟩ := caDescription_inj hm.width_lt hm.height_lt hw' hh'
      (eq_of_match (plain_caDescription _ _) (plain_caDescription _ _) hmatch)
    exact hm

/-- The header that `pdp_packet_new` makes. -/
theorem honest_fresh (t : Nat) (data : DataArea) : Honest (Packet.fresh t data).toMeta where
  typed _ he := by cases he
  described _ _ _ hd := by cases hd

theorem IsAutomaton.step {m : Meta} {w h : Nat} (hm : IsAutomaton m w h) (depth chanmask : Nat) :
    IsAutomaton { m with info := { m.info with depth := depth, chanmask := chanmask } } w h :=
  ⟨hm.type, hm.encoding, hm.width, hm.height, hm.width_lt, hm.height_lt, hm.desc⟩

variable {s s' : Pool} {x : Int} {q : Packet}

theorem SoundPool.same (hs : SoundPool s) (h : Same s s') : SoundPool s' where
  fifo d x hx := by
    rw [h.header]
    exact hs.fifo d x (h.reusefifo ▸ hx)
  honest x q hq := hs.honest x q (by rwa [← h.header])
  classes := h.classList ▸ hs.classes

theorem SoundPool.puts (hs : SoundPool s) (hp : Puts s x (some q) s') (hq : Honest q.toMeta) :
    SoundPool s' where
  fifo d y hy := by
    rw [hp.header]
    split
    · exact Option.some_ne_none q
    · exact hs.fifo d y (hp.reusefifo ▸ hy)
  honest y p hy := by
    rw [hp.header] at hy
    split at hy
    · cases hy
      exact hq
    · exact hs.honest y p hy
  classes := hp.classList ▸ hs.classes

theorem SoundPool.setFifo (hs : SoundPool s) {d : Symbol} {l : List Int}
    (hl : ∀ x ∈ l, x ∈ s.reusefifo d) : SoundPool (s.setFifo d l) where
  fifo e y hy := by
    rw [header_setFifo]
    rw [reusefifo_setFifo] at hy
    split at hy
    · exact hs.fifo d y (hl y hy)
    · exact hs.fifo e y hy
  honest := hs.honest
  classes := hs.classes

theorem SoundPool.save (hs : SoundPool s) (hx : s.pdpPacketHeader x ≠ none) (d : Symbol) :
    SoundPool (pdpPacketSaveNolock x d s) where
  fifo e y hy := by
    rw [header_save]
    rcases mem_reusefifo_save.mp hy with hy | ⟨-, rfl⟩
    · exact hs.fifo e y hy
    · exact hx
  honest y p hy := hs.honest y p (by rwa [header_save] at hy)
  classes := by
    rw [classList_save]
    exact hs.classes

theorem SoundPool.markUnused (hs : SoundPool s) (x : Int) :
    SoundPool (pdpPacketMarkUnused x s) := by
  cases hx : s.pdpPacketHeader x with
  | none => rwa [pdpPacketMarkUnused_none hx]
  | some p =>
      have hput := hs.puts (puts_of_header hx (some { p with users := p.users - 1 }))
        (hs.honest x p hx)
      rcases pdpPacketMarkUnused_eq hx with ⟨hrun, -⟩ | ⟨d, -, -, hrun⟩
      · rwa [hrun]
      · rw [hrun]
        refine hput.save ?_ d
        rw [(puts_of_header hx _).self]
        exact Option.some_ne_none _

theorem SoundPool.reuse (hs : SoundPool s) {d : Option Symbol} {r : Int}
    (h : pdpPacketReuse d s = .ok (r, s')) : SoundPool s' := by
  cases d with
  | none =>
      cases h
      exact hs
  | some d =>
      have hinv := reuseFrom_inv (I := SoundPool) (d := d)
        (fun t x l p ht hl _ _ => ht.setFifo fun y hy => by
          rw [hl]
          exact List.mem_cons_of_mem x hy)
        (fun t x l p d' ht hl hp _ _ _ => by
          refine (ht.setFifo fun y hy => ?_).save ?_ d'
          · rw [hl]
            exact List.mem_cons_of_mem x hy
          · rw [header_setFifo, hp]
            exact Option.some_ne_none p)
        hs rfl h
      rcases hinv with ⟨-, hs', -⟩ | ⟨t, p, rest, ht, hfound, rfl⟩
      · exact hs'
      · have hrest := ht.setFifo (d := d) (l := rest) fun y hy => by
          rw [hfound.fifo]
          exact List.mem_cons_of_mem r hy
        have hhead : (t.setFifo d rest).pdpPacketHeader r = some p := hfound.header
        exact hrest.puts (puts_of_header hhead _) (ht.honest r p hfound.header)

theorem SoundPool.new (hs : SoundPool s) {t n : Nat} {r : Int}
    (h : pdpPacketNew t n s = .ok (r, s')) : SoundPool s' := by
  rcases pdpPacketNew_spec h with ⟨-, hsame⟩ | hout
  · exact hs.same hsame
  · obtain ⟨data, -, hputs⟩ := hout.puts
    exact hs.puts hputs (honest_fresh t data)

/-- No null header is read, whatever else may go wrong. -/
def NotNullHeader (e : Fault) : Prop := e ≠ .nullHeader

theorem reuseFrom_notNull {d : Symbol} {l : List Int} {e : Fault}
    (hl : ∀ x ∈ l, s.pdpPacketHeader x ≠ none) (h : reuseFrom d l s = .error e) :
    NotNullHeader e := by
  induction l generalizing s with
  | nil => cases h
  | cons x l ih =>
      have hrest : ∀ y ∈ l, s.pdpPacketHeader y ≠ none := fun y hy =>
        hl y (List.mem_cons_of_mem x hy)
      simp only [reuseFrom, header_setFifo] at h
      split at h
      · next hx => exact absurd hx (hl x List.mem_cons_self)
      · split at h
        · split at h
          · cases h
            exact fun he => by cases he
          · split at h
            · cases h
            · refine ih (fun y hy => ?_) h
              rw [header_save, header_setFifo]
              exact hrest y hy
        · refine ih (fun y hy => ?_) h
          rw [header_setFifo]
          exact hrest y hy

theorem SoundPool.reuse_error (hs : SoundPool s) {d : Option Symbol} {e : Fault}
    (h : pdpPacketReuse d s = .error e) : NotNullHeader e := by
  cases d with
  | none => cases h
  | some d => exact reuseFrom_notNull (fun x hx => hs.fifo d x hx) h

end Sound

/-! ## Memory -/

section Memory

/-- The next `n` calls of `malloc` do not fail. -/
def MallocWorks (s : Pool) (n : Nat) : Prop :=
  ∀ k, s.mallocs ≤ k → k < s.mallocs + n → s.malloc k ≠ none

/-- At most `n` calls of `malloc` are made. -/
structure Spends (s s' : Pool) (n : Nat) : Prop where
  malloc : s'.malloc = s.malloc
  mallocs : s.mallocs ≤ s'.mallocs
  spent : s'.mallocs ≤ s.mallocs + n

variable {s s' : Pool} {m n : Nat}

theorem Spends.works (h : Spends s s' m) (hs : MallocWorks s (m + n)) : MallocWorks s' n := by
  intro k hk hlt
  have hspent := h.spent
  rw [h.malloc]
  exact hs k (Nat.le_trans h.mallocs hk) (by omega)

theorem MallocWorks.mono (hs : MallocWorks s n) (hm : m ≤ n) : MallocWorks s m :=
  fun k hk hlt => hs k hk (by omega)

theorem Spends.trans {s'' : Pool} (h : Spends s s' m) (h' : Spends s' s'' n) :
    Spends s s'' (m + n) where
  malloc := h'.malloc.trans h.malloc
  mallocs := Nat.le_trans h.mallocs h'.mallocs
  spent := by
    have hspent := h.spent
    have hspent' := h'.spent
    omega

theorem Spends.mono (h : Spends s s' m) (hm : m ≤ n) : Spends s s' n :=
  ⟨h.malloc, h.mallocs, Nat.le_trans h.spent (by omega)⟩

theorem Spends.refl (s : Pool) : Spends s s 0 := ⟨rfl, Nat.le_refl _, Nat.le_refl _⟩

theorem spends_put (s : Pool) (x : Int) (q : Option Packet) : Spends s (s.put x q) 0 :=
  ⟨rfl, Nat.le_refl _, Nat.le_refl _⟩

theorem spends_createAt {t n slot : Nat} {r : Int} (h : createAt t n slot s = .ok (r, s')) :
    Spends s s' 1 := by
  have htick : Spends s s.tick 1 := ⟨rfl, Nat.le_succ _, Nat.le_refl _⟩
  unfold createAt at h
  split at h
  · cases h
  · next he =>
      cases h
      exact (pdpPacketAllocNolock_spec he).1 ▸ htick
  · next he =>
      cases h
      exact ((pdpPacketAllocNolock_spec he).1 ▸ htick).trans (spends_put _ _ _)

theorem spends_create {t n : Nat} {r : Int} (h : pdpPacketCreate t n s = .ok (r, s')) :
    Spends s s' 2 := by
  unfold pdpPacketCreate at h
  split at h
  · exact (spends_createAt h).mono (by omega)
  · split at h
    · cases h
    · next he =>
        unfold pdpPoolExpandNolock at he
        split at he
        · cases he
        · split at he
          · cases he
          · cases he
            have hgrow : Spends s s.tick.grow 1 := ⟨rfl, Nat.le_succ _, Nat.le_refl _⟩
            exact hgrow.trans (spends_createAt h)

theorem spends_new {t n : Nat} {r : Int} (h : pdpPacketNew t n s = .ok (r, s')) :
    Spends s s' 2 := by
  unfold pdpPacketNew at h
  split at h
  · cases h
    exact (spends_put _ _ _).mono (by omega)
  · exact spends_create h

theorem spends_save (s : Pool) (x : Int) (d : Symbol) :
    Spends s (pdpPacketSaveNolock x d s) 0 :=
  ⟨(heap_save s x d).1, Nat.le_of_eq (heap_save s x d).2.symm, Nat.le_of_eq (heap_save s x d).2⟩

theorem spends_reuse {d : Option Symbol} {r : Int} (h : pdpPacketReuse d s = .ok (r, s')) :
    Spends s s' 0 := by
  cases d with
  | none =>
      cases h
      exact .refl s
  | some d =>
      have hfifo : ∀ t l, Spends t (t.setFifo d l) 0 := fun t l =>
        ⟨rfl, Nat.le_refl _, Nat.le_refl _⟩
      have hinv := reuseFrom_inv (I := fun t => Spends s t 0) (d := d)
        (fun t x l p ht _ _ _ => ht.trans (hfifo t l))
        (fun t x l p d' ht _ _ _ _ _ => (ht.trans (hfifo t l)).trans (spends_save _ x d'))
        (.refl s) rfl h
      rcases hinv with ⟨-, hs', -⟩ | ⟨t, p, rest, ht, -, rfl⟩
      · exact hs'
      · exact (ht.trans (hfifo t rest)).trans (spends_put _ _ _)

theorem spends_markUnused (s : Pool) (x : Int) : Spends s (pdpPacketMarkUnused x s) 0 := by
  cases hx : s.pdpPacketHeader x with
  | none =>
      rw [pdpPacketMarkUnused_none hx]
      exact .refl s
  | some p =>
      rcases pdpPacketMarkUnused_eq hx with ⟨hrun, -⟩ | ⟨d, -, -, hrun⟩
      · rw [hrun]
        exact spends_put _ _ _
      · rw [hrun]
        exact (spends_put _ _ _).trans (spends_save _ _ _)

theorem spends_memcpyHeader {x y : Int} (h : memcpyHeader x y s = .ok s') : Spends s s' 0 := by
  unfold memcpyHeader at h
  split at h
  · cases h
    exact spends_put _ _ _
  · cases h

theorem spends_memcpyData {x : Int} {l : List UInt8} (h : memcpyData x l s = .ok s') :
    Spends s s' 0 := by
  unfold memcpyData at h
  split at h
  · cases h
  · split at h
    · cases h
      exact spends_put _ _ _
    · cases h

end Memory

/-! ## Clones and copies -/

section Clone

variable {s : Pool} {x : Int} {p : Packet} {w h : Nat}

/-- `r` is an automaton that was not in use; what is in use has not changed. -/
structure NewCa (s : Pool) (w h : Nat) (r : Int) (s' : Pool) : Prop where
  header : ∃ q, s'.pdpPacketHeader r = some q ∧ 0 < q.users ∧ IsAutomaton q.toMeta w h
  unused : ∀ q, s.pdpPacketHeader r = some q → q.users = 0
  others : ∀ y, y ≠ r → s'.pdpPacketHeader y = s.pdpPacketHeader y
  sound : SoundPool s'
  spends : Spends s s' 2

theorem NewCa.ne_neg_one {r : Int} {s' : Pool} (hn : NewCa s w h r s') : r ≠ -1 := by
  obtain ⟨q, hq, -⟩ := hn.header
  exact ne_neg_one_of_header hq

/-- It is another packet than one that was in use. -/
theorem NewCa.ne {r : Int} {s' : Pool} (hn : NewCa s w h r s') (hp : s.pdpPacketHeader x = some p)
    (hu : 0 < p.users) : x ≠ r := by
  rintro rfl
  have := hn.unused p hp
  omega

/-- What is written to the data area of a new automaton does not matter. -/
theorem NewCa.data {r : Int} {s₁ s₂ : Pool} (hn : NewCa s w h r s₁) {l : List UInt8}
    (hw : memcpyData r l s₁ = .ok s₂) : NewCa s w h r s₂ := by
  obtain ⟨q, _, hq, hputs⟩ := memcpyData_spec hw
  obtain ⟨q', hq', hu, ha⟩ := hn.header
  obtain rfl : q = q' := Option.some.inj (hq.symm.trans hq')
  exact ⟨⟨_, hputs.self, hu, ha⟩, hn.unused, fun y hy => (hputs.other hy).trans (hn.others y hy),
    hn.sound.puts hputs ha.honest, hn.spends.trans (spends_memcpyData hw)⟩

theorem ends_reuse_sound {α : Type} {Q : α → Pool → Prop} (hs : SoundPool s) {d : Option Symbol}
    {k : Int → PoolProg α} (hk : ∀ r s', pdpPacketReuse d s = .ok (r, s') →
      (k r).Ends PoolOp.exec NotNullHeader Q s') :
    Prog.Ends PoolOp.exec NotNullHeader (.act (.reuse d) k) Q s :=
  Prog.ends_act (fun _ he => hs.reuse_error he) hk

theorem new_notNull {t n : Nat} {e : Fault} (h : pdpPacketNew t n s = .error e) :
    NotNullHeader e := by
  rcases pdpPacketNew_error h with rfl | ⟨rfl, -⟩
  · exact fun he => by cases he
  · exact fun he => by cases he

/-- A header is copied to a packet that is new. -/
theorem ends_cloneManually_ca (hs : SoundPool s) (hm : MallocWorks s 2)
    (hp : s.pdpPacketHeader x = some p) (hu : 0 < p.users) (ha : IsAutomaton p.toMeta w h) :
    (cloneManually x).Ends PoolOp.exec NotNullHeader (NewCa s w h) s := by
  have hlt := p.data.size_lt
  have hsize : u32 (p.data.size + pdpHeaderSize) < 2 ^ 31 := by
    rw [u32_eq_self]
    · exact hlt
    · exact Nat.lt_trans hlt (by decide)
  refine ends_header ?_
  rw [hp]
  refine Prog.ends_act (fun e he => new_notNull he) fun r s₁ he => ends_header ?_
  rcases pdpPacketNew_spec he with ⟨rfl, -⟩ | ho
  · exact absurd rfl (pdpPacketNew_ne_neg_one hm hsize he)
  · obtain ⟨data, -, hputs⟩ := ho.puts
    have hne : x ≠ r := Ne.symm (ho.ne_of_used hp (by omega))
    have hp₁ : s₁.pdpPacketHeader x = some p := (hputs.other hne).trans hp
    rw [hputs.self]
    refine Prog.ends_act (fun e hw => ?_) fun _ s₂ hw => Prog.ends_done ?_
    · simp only [PoolOp.exec, memcpyHeader, hputs.self, hp₁] at hw
      cases hw
    · have hw' := PoolOp.effect_eq_ok hw
      obtain ⟨d, q, hd, hq, hputs'⟩ := memcpyHeader_spec hw'
      obtain rfl : p = q := Option.some.inj (hp₁.symm.trans hq)
      have hsound := (hs.puts hputs (honest_fresh p.type data)).puts hputs' ha.honest
      exact ⟨⟨_, hputs'.self, hu, ha⟩, ho.unused,
        fun y hy => (hputs'.other hy).trans (hputs.other hy), hsound,
        (spends_new he).trans (spends_memcpyHeader hw')⟩

/-- A clone has the dimensions of the original, which is in use or may be used
itself. -/
theorem ends_cloneRw_ca (hs : SoundPool s) (hm : MallocWorks s 2)
    (hp : s.pdpPacketHeader x = some p) (ha : IsAutomaton p.toMeta w h)
    (hu : p.users = 0 → x ∈ s.reusefifo (caDescription w h)) :
    (pdpPacketCloneRw x).Ends PoolOp.exec NotNullHeader (NewCa s w h) s := by
  refine ends_header ?_
  rw [hp]
  refine ends_reuse_sound hs fun r s₁ he => ?_
  show Prog.Ends _ _ (if r ≠ -1 then _ else _) _ _
  rw [ha.desc] at he
  have hs₁ := hs.reuse he
  have hspends := spends_reuse he
  rcases pdpPacketReuse_cases he with ⟨rfl, hx⟩ | ⟨q, ⟨-, hq, hq0, d, hd, hmatch⟩, hh⟩
  · rw [if_neg (by simp), ha.desc]
    have hused : 0 < p.users := by
      refine Nat.pos_of_ne_zero fun h0 => hx.none x p ⟨hu h0, hp, h0, _, ha.desc, ?_⟩
      exact pdpTypeDescriptionMatch_self _
    -- the factory looks into the same fifo, and no class makes automata
    have hfactory : (pdpFactoryNewpacket (some (caDescription w h))).Ends PoolOp.exec NotNullHeader
        (fun r s' => r = -1 ∧ s' = s₁) s₁ := by
      refine ends_reuse_sound hs₁ fun r s₂ he => ?_
      have hr : r = -1 ∧ s₂ = s₁ := by
        simp only [pdpPacketReuse, hx.empty, reuseFrom, Except.ok.injEq, Prod.mk.injEq] at he
        exact ⟨he.1.symm, he.2.symm⟩
      obtain ⟨rfl, rfl⟩ := hr
      refine Prog.ends_act (fun _ he => by cases he) fun _ _ he => ?_
      cases he
      show Prog.Ends _ _ (createFromClass _ _) _ _
      have hnone : s₂.classList.find? (·.handles (caDescription w h)) = none := by
        refine List.find?_eq_none.mpr fun c hc => ?_
        rw [hs₁.classes c hc w h]
        decide
      unfold createFromClass
      rw [hnone]
      exact Prog.ends_done ⟨rfl, rfl⟩
    refine Prog.ends_bind hfactory ?_
    rintro r s₂ ⟨rfl, rfl⟩
    rw [if_neg (by simp)]
    have hm₂ : MallocWorks s₂ 2 := hspends.works (by simpa using hm)
    refine Prog.ends_mono (ends_cloneManually_ca hs₁ hm₂ ((hx.header x).trans hp) hused ha)
      fun r s' hn => ⟨hn.header, fun q hq => ?_, fun y hy => ?_, hn.sound, ?_⟩
    · exact hn.unused q ((hx.header r).trans hq)
    · rw [hn.others y hy, hx.header]
    · simpa using hspends.trans hn.spends
  · rw [if_pos (ne_neg_one_of_header hq)]
    have hself : s₁.pdpPacketHeader r = some { q with users := 1 } := by rw [hh, if_pos rfl]
    refine Prog.ends_done ⟨⟨_, hself, Nat.one_pos, ?_⟩, fun q' hq' => ?_, fun y hy => ?_, hs₁,
      hspends.mono (by omega)⟩
    · exact (hs.honest r q hq).described d w h hd ha.width_lt ha.height_lt hmatch
    · cases hq.symm.trans hq'
      exact hq0
    · rw [hh, if_neg hy]

theorem ends_copyRw_ca (hs : SoundPool s) (hm : MallocWorks s 2)
    (hp : s.pdpPacketHeader x = some p) (ha : IsAutomaton p.toMeta w h)
    (hu : p.users = 0 → x ∈ s.reusefifo (caDescription w h))
    (hflags : p.flags &&& pdpFlagDonotcopy = 0) :
    (pdpPacketCopyRw x).Ends PoolOp.exec NotNullHeader (NewCa s w h) s := by
  refine ends_header ?_
  rw [hp]
  show Prog.Ends _ _ (if _ then _ else _) _ _
  rw [if_neg (not_not.mpr hflags)]
  refine Prog.ends_bind (ends_cloneRw_ca hs hm hp ha hu) fun r s₁ hn => ?_
  rw [if_neg hn.ne_neg_one]
  -- an original that was not in use may be its own copy
  have hp₁ : ∃ p₁, s₁.pdpPacketHeader x = some p₁ := by
    by_cases he : x = r
    · obtain ⟨q, hq, -⟩ := hn.header
      exact ⟨q, he ▸ hq⟩
    · exact ⟨p, (hn.others x he).trans hp⟩
  obtain ⟨p₁, hp₁⟩ := hp₁
  refine ends_header ?_
  rw [hp₁]
  show Prog.Ends _ _ (copyByClass r p₁) _ _
  unfold copyByClass
  cases p₁.theclass.bind (·.copy) with
  | none =>
      refine Prog.ends_act (fun e he => ?_) fun _ s₂ he => Prog.ends_done ?_
      · obtain ⟨q, hq, -⟩ := hn.header
        simp only [PoolOp.exec, memcpyData, hq] at he
        split at he
        · cases he
        · cases he
          exact fun h => by cases h
      · exact hn.data (PoolOp.effect_eq_ok he)
  | some copy =>
      cases copy with
      | pdpMatrixCopy => exact Prog.ends_crash fun h => by cases h
      | pdpTexCopy => exact Prog.ends_done hn
      | threeDcontextCopy => exact Prog.ends_done hn

theorem isAutomaton_caMade {width height : Int} (hw : IsInt width) (hh : IsInt height) :
    IsAutomaton (caMade width height) (caWidth width).toNat (caHeight height).toNat := by
  obtain ⟨hwidth, hheight, -⟩ := dims_caMade hw hh
  obtain ⟨-, hwide, hwide', htall, htall'⟩ := rounded hw hh
  have hw' : (caMade width height).info.width = (caWidth width).toNat := by omega
  have hh' : (caMade width height).info.height = (caHeight height).toNat := by omega
  refine ⟨rfl, rfl, hw', hh', by omega, by omega, ?_⟩
  rw [← hw', ← hh']
  rfl

/-- `pdp_packet_new_ca` makes an automaton, if there is memory for one. -/
theorem ends_newCa {width height : Int} (hw : IsInt width) (hh : IsInt height) (hs : SoundPool s)
    (hm : MallocWorks s 2) (hfit : IsInt (caWidth width / 8 * caHeight height) →
      Fitting (caBytes width height)) :
    (pdpPacketNewCa width height).Ends PoolOp.exec NotNullHeader
      (NewCa s (caWidth width).toNat (caHeight height).toNat) s := by
  unfold pdpPacketNewCa intMul
  split
  · next hint =>
      obtain ⟨hsize, -, -⟩ := bytes_eq hw hh hint
      have hfits : u32 (caBytes width height + pdpHeaderSize) < 2 ^ 31 := by
        rw [u32_eq_self]
        · exact hfit hint
        · exact Nat.lt_trans (hfit hint) (by decide)
      refine Prog.ends_act (fun e he => new_notNull he) fun r s₁ hnew => ends_header ?_
      have he : pdpPacketNew pdpCa (caBytes width height) s = .ok (r, s₁) := hsize ▸ hnew
      rcases pdpPacketNew_spec he with ⟨rfl, -⟩ | ho
      · exact absurd rfl (pdpPacketNew_ne_neg_one hm hfits he)
      · obtain ⟨data, -, hputs⟩ := ho.puts
        rw [hputs.self]
        refine Prog.ends_act (fun e hw => ?_) fun _ s₂ hw' => Prog.ends_done ?_
        · rw [writeHeader_eq hputs.self] at hw
          cases hw
        · rw [writeHeader_eq hputs.self] at hw'
          cases hw'
          have hputs' := puts_of_header hputs.self
            (some { Packet.fresh pdpCa data with toMeta := caMade width height })
          have ha := isAutomaton_caMade hw hh
          exact ⟨⟨_, hputs'.self, Nat.one_pos, ha⟩, ho.unused,
            fun y hy => (hputs'.other hy).trans (hputs.other hy),
            (hs.puts hputs (honest_fresh pdpCa data)).puts hputs' ha.honest,
            (spends_new he).trans (spends_put _ _ _)⟩
  · exact Prog.ends_crash fun h => by cases h

end Clone

end PureDataPacket
