/-
# `PureDataPacket.Kernel.CloneOrigin` — where a writable clone comes from

`pdp_packet_clone_rw` returns an unused packet whose description matches, or a packet that the
factory makes to order, or a new packet with a copy of the whole header.  `ends_cloneOrigin` says
so of every run that ends, with what happens to the other packets: those in use stay as they are,
and no packet gets unused.

| | |
| :-- | :-- |
| `KeepsUsed` | packets in use have not changed |
| `Origin` | what can be got by a description |
| `CloneOrigin` | what a clone can be |
| `Obtained` | an answer: -1, or a packet that was not in use |
-/
import PureDataPacket.Kernel.CloneRw

namespace PureDataPacket

open Pool

/-! ## What stays -/

/-- Packets in use have not changed, and the unused ones are some of those that were unused. -/
structure KeepsUsed (s s' : Pool) : Prop where
  used : ∀ x q, s.pdpPacketHeader x = some q → q.users ≠ 0 → s'.pdpPacketHeader x = some q
  unused : ∀ x q, s'.pdpPacketHeader x = some q → q.users = 0 → s.pdpPacketHeader x = some q
  classList : s'.classList = s.classList

/-- There is no packet in use in this slot. -/
def Available (s : Pool) (r : Int) : Prop := ∀ q, s.pdpPacketHeader r = some q → q.users = 0

section Keeps

variable {s s' s'' : Pool} {r h : Int} {p q : Packet}

theorem KeepsUsed.trans (h : KeepsUsed s s') (h' : KeepsUsed s' s'') : KeepsUsed s s'' where
  used x q hq hu := h'.used x q (h.used x q hq hu) hu
  unused x q hq hu := h.unused x q (h'.unused x q hq hu) hu
  classList := h'.classList.trans h.classList

theorem keepsUsed_same (hs : Same s s') : KeepsUsed s s' where
  used x _ hq _ := (hs.header x).trans hq
  unused x _ hq _ := (hs.header x).symm.trans hq
  classList := hs.classList

theorem KeepsUsed.available (h : KeepsUsed s s') (hr : Available s' r) : Available s r := by
  intro q hq
  by_contra hu
  exact hu (hr q (h.used r q hq hu))

/-- An available slot gets a packet that is in use, or none. -/
theorem keepsUsed_puts {x : Option Packet} (hr : Available s r) (hputs : Puts s r x s')
    (hx : ∀ q, x = some q → q.users ≠ 0) : KeepsUsed s s' where
  used y q hq hu := by
    have hne : y ≠ r := by
      rintro rfl
      exact hu (hr q hq)
    exact (hputs.other hne).trans hq
  unused y q hq hu := by
    have hne : y ≠ r := by
      rintro rfl
      exact hx q (hputs.self.symm.trans hq) hu
    exact (hputs.other hne).symm.trans hq
  classList := hputs.classList

/-! ## What a clone is -/

/-- What can be got by the description of `p`: an unused packet that matches, or a packet made to
order. -/
inductive Origin (s : Pool) (p : Packet) : Packet → Prop
  | reused {x : Int} {d d' : Symbol} {q : Packet} : p.desc = some d →
      s.pdpPacketHeader x = some q → q.users = 0 → q.desc = some d' →
      pdpTypeDescriptionMatch d' d = true → Origin s p { q with users := 1 }
  | made {d : Symbol} {b : Blueprint} {data : DataArea} : p.desc = some d →
      blueprintFor s.classList d = some b → b.made.desc = some d → Origin s p ⟨b.made, 1, data⟩

/-- What a clone of `p` can be: one of these, or a copy of the header of `p` if there is nothing
to reuse and the factory makes nothing. -/
def CloneOrigin (s : Pool) (p q : Packet) : Prop :=
  Origin s p q ∨ (∃ t t', pdpPacketReuse p.desc s = .ok (-1, t) ∧
    (pdpFactoryNewpacket p.desc).run t = .ok (-1, t')) ∧ q.toMeta = p.toMeta ∧ q.users = p.users

/-- An answer: -1, or a packet that was not in use. -/
structure Obtained (origin : Packet → Prop) (s : Pool) (r : Int) (s' : Pool) : Prop where
  keeps : KeepsUsed s s'
  packet : r ≠ -1 → Available s r ∧ ∃ q, s'.pdpPacketHeader r = some q ∧ origin q

variable {origin origin' : Packet → Prop}

theorem Obtained.nothing (hk : KeepsUsed s s') : Obtained origin s (-1) s' :=
  ⟨hk, fun h => absurd rfl h⟩

theorem Origin.mono (h : KeepsUsed s s') (ho : Origin s' p q) : Origin s p q := by
  cases ho with
  | reused hd hx hu hd' hm => exact .reused hd (h.unused _ _ hx hu) hu hd' hm
  | made hd hb hm => exact .made hd (h.classList ▸ hb) hm

theorem Obtained.after (h : KeepsUsed s s') (horigin : ∀ q, origin' q → origin q)
    (ho : Obtained origin' s' r s'') : Obtained origin s r s'' where
  keeps := h.trans ho.keeps
  packet hr := by
    obtain ⟨havailable, q, hq, ho⟩ := ho.packet hr
    exact ⟨h.available havailable, q, hq, horigin q ho⟩

/-! ## The operations -/

theorem obtained_reuse (h : pdpPacketReuse p.desc s = .ok (r, s')) :
    Obtained (Origin s p) s r s' := by
  obtain ⟨hc, ⟨rfl, hsame⟩ | ⟨q, d', d, hq, hu, hd', hd, hm, _, hheader⟩⟩ := pdpPacketReuse_spec h
  · exact .nothing ⟨fun x q hq _ => (hsame x).trans hq, fun x q hq _ => (hsame x).symm.trans hq, hc⟩
  · have havailable : Available s r := fun q' hq' => by
      obtain rfl := Option.some.inj (hq.symm.trans hq')
      exact hu
    have hself : s'.pdpPacketHeader r = some { q with users := 1 } := (hheader r).trans (if_pos rfl)
    refine ⟨⟨fun x q' hq' hu' => ?_, fun x q' hq' hu' => ?_, hc⟩,
      fun _ => ⟨havailable, _, hself, .reused hd hq hu hd' hm⟩⟩
    · have hne : x ≠ r := by
        rintro rfl
        exact hu' (havailable q' hq')
      rw [hheader, if_neg hne, hq']
    · have hne : x ≠ r := by
        rintro rfl
        obtain rfl := Option.some.inj (hself.symm.trans hq')
        cases hu'
      rwa [hheader, if_neg hne] at hq'

theorem ends_any {α : Type} {Q : α → Pool → Prop} {o : PoolOp} {k : o.Answer → PoolProg α}
    (hk : ∀ r s', PoolOp.exec o s = .ok (r, s') → (k r).Ends PoolOp.exec AnyFault Q s') :
    Prog.Ends PoolOp.exec AnyFault (.act o k) Q s :=
  Prog.ends_act (fun _ _ => trivial) hk

/-- The packet that the constructor of a factory returns, if it has the right description. -/
theorem ends_keepOrigin {d : Symbol} {b : Blueprint} {data : DataArea} (hd : p.desc = some d)
    (hb : blueprintFor s.classList d = some b) (hk : KeepsUsed s s') (hr : Available s r)
    (hq : s'.pdpPacketHeader r = some ⟨b.made, 1, data⟩) :
    (keepExact d r).Ends PoolOp.exec AnyFault (Obtained (Origin s p) s) s' := by
  unfold keepExact
  rw [if_neg (ne_neg_one_of_header hq)]
  refine ends_any fun x s₁ he => ?_
  cases he
  rw [hq]
  show Prog.Ends _ _ (if some d ≠ b.made.desc then _ else _) _ _
  by_cases hmade : b.made.desc = some d
  · rw [if_neg (not_not.mpr hmade.symm)]
    exact Prog.ends_done ⟨hk, fun _ => ⟨hr, _, hq, .made hd hb hmade⟩⟩
  · rw [if_pos (Ne.symm hmade)]
    refine ends_any fun _ s₂ he => Prog.ends_done ?_
    obtain ⟨_, hputs⟩ := pdpPacketDelete_spec (PoolOp.effect_eq_ok he)
    refine .nothing ⟨fun x q hx hu => ?_, fun x q hx hu => ?_,
      hputs.classList.trans hk.classList⟩
    · have hne : x ≠ r := by
        rintro rfl
        exact hu (hr q hx)
      exact (hputs.other hne).trans (hk.used x q hx hu)
    · have hne : x ≠ r := by
        rintro rfl
        cases hputs.self.symm.trans hx
      exact hk.unused x q ((hputs.other hne).symm.trans hx) hu

theorem ends_buildOrigin {d : Symbol} {b : Blueprint} (hd : p.desc = some d)
    (hb : blueprintFor s.classList d = some b) :
    (b.build.bind (keepExact d)).Ends PoolOp.exec AnyFault (Obtained (Origin s p) s) s := by
  refine Prog.ends_bind (Q := fun r s' => KeepsUsed s s' ∧ (r ≠ -1 → Available s r ∧
    ∃ data, s'.pdpPacketHeader r = some ⟨b.made, 1, data⟩)) ?_ ?_
  · refine ends_any fun r s₁ he => ends_any fun x s₂ he' => ?_
    cases he'
    rcases pdpPacketNew_spec he with ⟨rfl, hs⟩ | ho
    · rw [header_neg_one]
      exact Prog.ends_done ⟨keepsUsed_same hs, fun h => absurd rfl h⟩
    · obtain ⟨data, _, hputs⟩ := ho.puts
      rw [hputs.self]
      refine ends_any fun _ s₂ he => Prog.ends_done ?_
      obtain ⟨q, hq, hw⟩ := writeHeader_spec (PoolOp.effect_eq_ok he)
      cases hputs.self.symm.trans hq
      have hboth := hputs.trans hw
      refine ⟨keepsUsed_puts ho.unused hboth fun q hq => ?_, fun _ => ⟨ho.unused, data, hboth.self⟩⟩
      cases hq
      exact Nat.one_ne_zero
  · rintro r s₁ ⟨hk, hmade⟩
    by_cases hr : r = -1
    · subst hr
      exact Prog.ends_done (.nothing hk)
    · obtain ⟨havailable, data, hq⟩ := hmade hr
      exact ends_keepOrigin hd hb hk havailable hq

theorem ends_newpacketOrigin :
    (pdpFactoryNewpacket p.desc).Ends PoolOp.exec AnyFault (Obtained (Origin s p) s) s := by
  refine ends_any fun r s₁ he => ?_
  have hreuse := obtained_reuse he
  show Prog.Ends _ _ (if r ≠ -1 then _ else _) _ _
  by_cases hr : r = -1
  · subst hr
    rw [if_neg (not_not.mpr rfl)]
    refine ends_any fun classes s₂ he => ?_
    cases he
    refine Prog.ends_mono (Q := Obtained (Origin s₁ p) s₁) ?_ fun _ _ ho =>
      ho.after hreuse.keeps fun _ h => h.mono hreuse.keeps
    have hnothing : Obtained (Origin s₁ p) s₁ (-1) s₁ := .nothing (keepsUsed_same (.refl s₁))
    cases hd : p.desc with
    | none =>
        show Prog.Ends _ _ (if _ then _ else _) _ _
        split
        · exact Prog.ends_crash trivial
        · exact Prog.ends_done hnothing
    | some d =>
        show Prog.Ends _ _ (createFromClass _ _) _ _
        rcases createFromClass_eq s₁.classList d with ⟨b, hb, heq⟩ | ⟨_, heq | heq⟩
        · rw [heq]
          exact ends_buildOrigin hd hb
        · rw [heq]
          exact Prog.ends_done hnothing
        · rw [heq]
          exact Prog.ends_crash trivial
  · rw [if_pos hr]
    exact Prog.ends_done hreuse

theorem ends_manualOrigin (hp : s.pdpPacketHeader h = some p) (hu : p.users ≠ 0) :
    (cloneManually h).Ends PoolOp.exec AnyFault
      (Obtained (fun q => q.toMeta = p.toMeta ∧ q.users = p.users) s) s := by
  refine ends_any fun x s₁ he => ?_
  cases he
  rw [hp]
  refine ends_any fun r s₁ he => ends_any fun x s₂ he' => ?_
  cases he'
  rcases pdpPacketNew_spec he with ⟨rfl, hs⟩ | ho
  · rw [header_neg_one]
    exact Prog.ends_done (.nothing (keepsUsed_same hs))
  · obtain ⟨data, _, hputs⟩ := ho.puts
    have hne := ho.ne_of_used hp hu
    rw [hputs.self]
    refine ends_any fun _ s₂ he => Prog.ends_done ?_
    obtain ⟨d, q, hd, hq, hw⟩ := memcpyHeader_spec (PoolOp.effect_eq_ok he)
    obtain rfl := Option.some.inj ((((hputs.other (Ne.symm hne)).trans hp)).symm.trans hq)
    have hboth := hputs.trans hw
    refine ⟨keepsUsed_puts ho.unused hboth fun q hq => ?_,
      fun _ => ⟨ho.unused, _, hboth.self, rfl, rfl⟩⟩
    cases hq
    exact hu

theorem ends_run {α : Type} {Q : α → Pool → Prop} {prog : PoolProg α}
    (h : prog.Ends PoolOp.exec AnyFault Q s) : prog.Ends PoolOp.exec AnyFault
      (fun r t => Q r t ∧ prog.run s = .ok (r, t)) s := by
  unfold Prog.Ends PoolProg.run at *
  cases hrun : Prog.run PoolOp.exec prog s with
  | error e => trivial
  | ok x =>
      rw [hrun] at h
      exact ⟨h, rfl⟩

/-- What a writable clone of a packet in use is, and what it leaves. -/
theorem ends_cloneOrigin (hp : s.pdpPacketHeader h = some p) (hu : p.users ≠ 0) :
    (pdpPacketCloneRw h).Ends PoolOp.exec AnyFault (Obtained (CloneOrigin s p) s) s := by
  refine ends_any fun x s₁ he => ?_
  cases he
  rw [hp]
  refine ends_any fun r s₁ he => ?_
  have hreuse := obtained_reuse he
  show Prog.Ends _ _ (if r ≠ -1 then _ else _) _ _
  by_cases hr : r = -1
  · subst hr
    rw [if_neg (not_not.mpr rfl)]
    refine Prog.ends_bind (ends_run ends_newpacketOrigin) ?_
    rintro r s₂ ⟨ho, hrun⟩
    show Prog.Ends _ _ (if r ≠ -1 then _ else _) _ _
    by_cases hr : r = -1
    · -- There was nothing to reuse, and the factory has failed.
      subst hr
      rw [if_neg (not_not.mpr rfl)]
      have hkeeps := hreuse.keeps.trans ho.keeps
      exact Prog.ends_mono (ends_manualOrigin (hkeeps.used h p hp hu) hu)
        fun _ _ ho' => ho'.after hkeeps fun _ hq => Or.inr ⟨⟨s₁, s₂, he, hrun⟩, hq⟩
    · rw [if_pos hr]
      exact Prog.ends_done
        (ho.after hreuse.keeps fun _ hq => Or.inl (hq.mono hreuse.keeps))
  · rw [if_pos hr]
    exact Prog.ends_done
      (hreuse.after (keepsUsed_same (.refl s)) fun _ hq => Or.inl hq)

end Keeps

end PureDataPacket
