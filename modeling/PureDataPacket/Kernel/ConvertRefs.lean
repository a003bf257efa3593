/-
# `PureDataPacket.Kernel.ConvertRefs` — the references of a conversion

A conversion creates packets on its way and must not keep them.  If each method
does what it should with the counts (`Method.HandsOver`: one new packet with
one user, or none, and nothing else), then so does the whole conversion,
however many lines it takes and wherever one of them fails.

`Adds s s' r` is the statement about two pools that is carried through: the
counts differ by one user of `r`.  The bookkeeping of the actions themselves,
which packets were returned and which were released, is read off the trace.

| | |
| :-- | :-- |
| `Adds` | from `s` to `s'` a packet `r` that was not in use got one user |
| `Method.HandsOver` | what a method does to the counts |
| `Served` | the states of the converter |
| `Balanced` | given `held`, the program returned and released packets so that `r` is left |
| `Balanced.append` | two stretches of a run, the second starting with what the first left |
| `Adds.release` | an intermediate packet is released once its successor is there |
| `OneReference` | what the caller is given |
-/
import Mathlib.Data.List.Perm.Basic
import PureDataPacket.Kernel.Convert
import PureDataPacket.Type.Image

namespace PureDataPacket

open Pool

/-! ## Counts -/

/-- The number of users behind a handle; none if there is no packet. -/
def usersOf (s : Pool) (h : Int) : Nat :=
  match s.pdpPacketHeader h with
  | none => 0
  | some p => p.users

/-- One reference to `r`, or none to -1. -/
def oneOf (r h : Int) : Nat := if h = r ∧ r ≠ -1 then 1 else 0

/-- From `s` to `s'` a packet `r` that was not in use got one user. -/
structure Adds (s s' : Pool) (r : Int) : Prop where
  users : ∀ h, usersOf s' h = usersOf s h + oneOf r h
  fresh : r ≠ -1 → usersOf s r = 0

/-- What a method does to the counts. -/
def Method.HandsOver (m : Method) : Prop :=
  ∀ packet template s r s', m packet template s = .ok (r, s') → Adds s s' r

theorem usersOf_markUnused (s : Pool) (p h : Int) :
    usersOf (pdpPacketMarkUnused p s) h = usersOf s h - if h = p then 1 else 0 := by
  unfold usersOf
  cases hp : s.pdpPacketHeader p with
  | none =>
      rw [pdpPacketMarkUnused_none hp]
      by_cases he : h = p
      · subst he
        simp only [hp, if_true]
      · simp only [if_neg he, Nat.sub_zero]
  | some q =>
      rw [header_markUnused hp]
      by_cases he : h = p
      · subst he
        simp only [if_true, hp]
      · simp only [if_neg he, Nat.sub_zero]

theorem usersOf_neg_one (s : Pool) : usersOf s (-1) = 0 := by
  unfold usersOf
  rw [header_neg_one]

theorem Adds.release {s s₁ s₂ : Pool} {p r : Int} (h₁ : Adds s s₁ p) (h₂ : Adds s₁ s₂ r) :
    Adds s (pdpPacketMarkUnused p s₂) r := by
  have hp : oneOf p p = if p = -1 then 0 else 1 := by
    by_cases hp : p = -1 <;> simp [oneOf, hp]
  have hpr : p ≠ -1 → r ≠ p := by
    rintro hp' rfl
    have := h₁.users r
    have := h₂.fresh hp'
    simp only [hp, if_neg hp'] at *
    omega
  refine ⟨fun h => ?_, fun hr => ?_⟩
  · rw [usersOf_markUnused, h₂.users, h₁.users]
    by_cases he : h = p
    · subst he
      by_cases hm : h = -1
      · subst hm
        simp only [usersOf_neg_one, oneOf, if_true]
        split <;> split <;> omega
      · have : oneOf r h = 0 := by simp [oneOf, Ne.symm (hpr hm)]
        simp only [this, hp, if_neg hm, if_true]
        omega
    · have : oneOf p h = 0 := by simp [oneOf, he]
      simp only [this, if_neg he]
      omega
  · have := h₁.users r
    have := h₂.fresh hr
    omega

/-- The last packet of a conversion that got stuck is released as well. -/
theorem Adds.drop {s s₁ : Pool} {p : Int} (h₁ : Adds s s₁ p) :
    Adds s (pdpPacketMarkUnused p s₁) (-1) :=
  h₁.release ⟨fun h => by simp [oneOf], fun h => absurd rfl h⟩

theorem Adds.of_handsOut {s s' : Pool} {t n : Nat} {r : Int} (h : HandsOut s t n r s') :
    Adds s s' r := by
  have hfree : usersOf s r = 0 := by
    unfold usersOf
    cases hp : s.pdpPacketHeader r with
    | none => rfl
    | some p => exact h.unused p hp
  obtain ⟨data, _, hputs⟩ := h.puts
  refine ⟨fun x => ?_, fun _ => hfree⟩
  by_cases hx : x = r
  · subst hx
    rw [hfree]
    simp only [usersOf, hputs.self, oneOf, ne_eq, h.ne_neg_one, not_false_eq_true, and_self,
      if_true]
    rfl
  · simp only [usersOf, hputs.other hx, oneOf, hx, false_and, if_false, Nat.add_zero]

theorem usersOf_writeHeader {s s' : Pool} {r : Int} {m : Meta} (h : writeHeader r m s = .ok s')
    (x : Int) : usersOf s' x = usersOf s x := by
  obtain ⟨p, hp, hputs⟩ := writeHeader_spec h
  by_cases hx : x = r
  · subst hx
    simp only [usersOf, hputs.self, hp]
  · simp only [usersOf, hputs.other hx]

/-- The constructors do to the counts what a method should. -/
theorem adds_construct {t n : Nat} {init : Meta → Meta} {s s' : Pool} {r : Int}
    (h : (construct t n init).run s = .ok (r, s')) : Adds s s' r := by
  obtain ⟨packet, s₁, hnew, h⟩ := Prog.run_act_eq_ok.mp h
  obtain ⟨header, s₂, hheader, h⟩ := Prog.run_act_eq_ok.mp h
  cases hheader
  cases hp : s₁.pdpPacketHeader packet with
  | none =>
      simp only [hp] at h
      cases h
      rcases pdpPacketNew_spec hnew with ⟨_, hs⟩ | ho
      · exact ⟨fun x => by simp [usersOf, hs.header, oneOf], fun hr => absurd rfl hr⟩
      · obtain ⟨data, _, hputs⟩ := ho.puts
        rw [hputs.self] at hp
        cases hp
  | some q =>
      simp only [hp] at h
      obtain ⟨_, s₃, hwrite, h⟩ := Prog.run_act_eq_ok.mp h
      cases h
      have hw := PoolOp.effect_eq_ok hwrite
      rcases pdpPacketNew_spec hnew with ⟨rfl, _⟩ | ho
      · cases hp
      · have hadds := Adds.of_handsOut ho
        exact ⟨fun x => by rw [usersOf_writeHeader hw, hadds.users], hadds.fresh⟩

/-! ## Programs and the loop -/

/-- What `p` returns, and the pool it leaves, meet `Q`. -/
def Yields {α : Type} (p : ConvProg α) (Q : α → Pool → Prop) (s : Converter) : Prop :=
  p.wp ConvOp.exec (fun _ _ => True) (fun a s' => Q a s'.pool) s

section Yields

variable {α β : Type} {Q : α → Pool → Prop} {s : Converter}

theorem yields_bind {p : ConvProg α} {f : α → ConvProg β} {Q' : β → Pool → Prop}
    (h : Yields p Q s) (hf : ∀ a s', Q a s'.pool → Yields (f a) Q' s') : Yields (p.bind f) Q' s :=
  (Prog.wp_bind p f _ s).mpr (Prog.wp_mono (fun _ _ => id) hf h)

theorem post_of_yields {p : ConvProg α} {s' : Converter} {a : α} (h : Yields p Q s)
    (hr : p.run ConvOp.exec s = .ok (a, s')) : Q a s'.pool :=
  Prog.post_of_wp (Q := fun a (s' : Converter) => Q a s'.pool) h hr

theorem yields_act {o : ConvOp} {k : o.Answer → ConvProg α}
    (hk : ∀ r s', o.exec s = .ok (r, s') → Yields (k r) Q s') : Yields (.act o k) Q s :=
  (Prog.wp_act o k _ s).mpr ⟨trivial, hk⟩

theorem yields_line {m : Method} {rest : List Method} {packet : Int} {template : Symbol}
    {k : Int → ConvProg α} (hm : m.HandsOver)
    (hk : ∀ r s', Adds s.pool s'.pool r → Yields (k r) Q s') :
    Yields (.act (.line m rest packet template) k) Q s := by
  refine yields_act fun r s' he => hk r s' ?_
  simp only [ConvOp.exec] at he
  split at he
  · next p pool hmp =>
      cases he
      exact hm _ _ _ _ _ hmp
  · cases he

theorem yields_markUnused {packet : Int} {k : Unit → ConvProg α}
    (hk : ∀ s', s'.pool = pdpPacketMarkUnused packet s.pool → Yields (k ()) Q s') :
    Yields (.act (.markUnused packet) k) Q s := by
  refine yields_act fun r s' he => hk s' ?_
  cases he
  rfl

end Yields

theorem yields_runLines {template : Symbol} {rest : List Method} {p : Int} {s₀ : Pool}
    {s : Converter} (hm : ∀ m ∈ rest, m.HandsOver) (hp : Adds s₀ s.pool p) :
    Yields (runLines template rest p) (fun r s' => Adds s₀ s' r) s := by
  induction rest generalizing p s with
  | nil => exact hp
  | cons m rest ih =>
      refine yields_line (hm m List.mem_cons_self) fun tmp s₁ h₁ => ?_
      refine yields_markUnused fun s₂ h₂ => ?_
      exact ih (fun m' hm' => hm m' (List.mem_cons_of_mem _ hm')) (h₂ ▸ hp.release h₁)

theorem yields_runConversionProgram {program : Program} {packet : Int} {template : Symbol}
    {s : Converter} (hm : ∀ m ∈ program.lines, m.HandsOver) :
    Yields (runConversionProgram program packet template) (fun r s' => Adds s.pool s' r) s := by
  refine yields_line (hm _ List.mem_cons_self) fun p s₁ h₁ => ?_
  exact yields_runLines (fun m' hm' => hm m' (List.mem_cons_of_mem _ hm')) h₁

/-- Every method of the table behaves. -/
def TableHandsOver (table : List Conversion) : Prop :=
  ∀ c ∈ table, ∀ m ∈ c.program.lines, m.HandsOver

theorem TableHandsOver.of_find {table : List Conversion} (ht : TableHandsOver table)
    {src dst : Symbol} {c : Conversion} (hc : findConversion table src dst = some c) :
    ∀ m ∈ c.program.lines, m.HandsOver :=
  ht c (List.mem_of_find?_eq_some hc)

theorem yields_convertLoop {table : List Conversion} (ht : TableHandsOver table)
    {type template : Symbol} {n : Nat} {program : Program} {tmp : Int} {s₀ : Pool}
    {s : Converter} (h₀ : Adds s₀ s.pool tmp) :
    Yields (convertLoop table type template n program tmp) (fun r s' => Adds s₀ s' r) s := by
  induction n generalizing program tmp s with
  | zero => trivial
  | succ n ih =>
      refine yields_act fun tmpType s₁ he => ?_
      cases he
      show Yields (if _ then _ else _) _ _
      split
      · refine yields_act fun _ s₂ he => ?_
        cases he
        exact h₀
      · cases hc : findConversion table (pdpPacketGetDescription tmp s.pool) template with
        | none =>
            refine yields_markUnused fun s₂ h₂ => ?_
            show Adds s₀ s₂.pool (-1)
            exact h₂ ▸ h₀.drop
        | some c =>
            refine yields_bind (yields_runConversionProgram (ht.of_find hc)) fun r s₂ h₂ => ?_
            exact yields_markUnused fun s₃ h₃ => ih (h₃ ▸ h₀.release h₂)

/-! ## The cache -/

/-- Every line in the cache comes from the table. -/
def CacheFrom (table cached : List Conversion) : Prop :=
  ∀ c ∈ cached, ∀ m ∈ c.program.lines, ∃ d ∈ table, m ∈ d.program.lines

/-- The states of the converter after any number of conversions, the pool being
used by others in between. -/
inductive Served (table : List Conversion) : Converter → Prop
  | start (pool : Pool) : Served table ⟨pool, []⟩
  | client {s : Converter} (pool : Pool) (hs : Served table s) : Served table ⟨pool, s.cached⟩
  | convert {s s' : Converter} {n : Nat} {packet r : Int} {template : Symbol}
      (hs : Served table s)
      (h : (pdpPacketConvert table n packet template).run ConvOp.exec s = .ok (r, s')) :
      Served table s'

theorem findCached_spec {src dst : Symbol} {cached cached' : List Conversion} {program : Program}
    (h : findCached src dst cached = some (program, cached')) :
    (∃ c ∈ cached, c.program = program) ∧ ∀ c ∈ cached', c ∈ cached := by
  unfold findCached at h
  split at h
  · cases h
  · next i hi =>
      split at h
      · next c last hc hl =>
          cases h
          have hcm := List.mem_of_getElem? hc
          refine ⟨⟨c, hcm, rfl⟩, fun x hx => ?_⟩
          rcases List.mem_or_eq_of_mem_set hx with hx | rfl
          · rcases List.mem_or_eq_of_mem_set hx with hx | rfl
            · exact hx
            · exact List.mem_of_getLast? hl
          · exact hcm
      · cases h

theorem CacheFrom.of_subset {table cached cached' : List Conversion} (hc : CacheFrom table cached)
    (h : ∀ c ∈ cached', c ∈ cached) : CacheFrom table cached' :=
  fun c hm => hc c (h c hm)

theorem CacheFrom.register {table cached : List Conversion} (hc : CacheFrom table cached)
    {c : Conversion} (hp : ∀ m ∈ c.program.lines, ∃ d ∈ table, m ∈ d.program.lines) :
    CacheFrom table (registerCached c cached) := by
  intro x hx
  rcases List.mem_append.mp hx with hx | hx
  · exact hc x (List.mem_of_mem_drop hx)
  · rw [List.mem_singleton.mp hx]
    exact hp

theorem cached_runLines {template : Symbol} {rest : List Method} {p : Int} {s : Converter} :
    (runLines template rest p).wp ConvOp.exec (fun _ _ => True)
      (fun _ s' => s'.cached = s.cached) s := by
  induction rest generalizing p s with
  | nil => rfl
  | cons m rest ih =>
      refine (Prog.wp_act _ _ _ _).mpr ⟨trivial, fun r s₁ he => ?_⟩
      have h₁ : s₁.cached = s.cached := by
        simp only [ConvOp.exec] at he
        split at he
        · cases he
          rfl
        · cases he
      refine (Prog.wp_act _ _ _ _).mpr ⟨trivial, fun _ s₂ he => ?_⟩
      cases he
      exact Prog.wp_mono (fun _ _ => id) (fun _ _ h => h.trans h₁) ih

theorem cached_runConversionProgram {program : Program} {packet : Int} {template : Symbol}
    {s : Converter} :
    (runConversionProgram program packet template).wp ConvOp.exec (fun _ _ => True)
      (fun _ s' => s'.cached = s.cached) s := by
  refine (Prog.wp_act _ _ _ _).mpr ⟨trivial, fun r s₁ he => ?_⟩
  have h₁ : s₁.cached = s.cached := by
    simp only [ConvOp.exec] at he
    split at he
    · cases he
      rfl
    · cases he
  exact Prog.wp_mono (fun _ _ => id) (fun _ _ h => h.trans h₁) cached_runLines

theorem CacheFrom.loop {table : List Conversion} {type template : Symbol} {n : Nat}
    {program : Program} {tmp : Int} {s : Converter} (hc : CacheFrom table s.cached)
    (hp : ∀ m ∈ program.lines, ∃ d ∈ table, m ∈ d.program.lines) :
    (convertLoop table type template n program tmp).wp ConvOp.exec (fun _ _ => True)
      (fun _ s' => CacheFrom table s'.cached) s := by
  induction n generalizing program tmp s with
  | zero => trivial
  | succ n ih =>
      refine (Prog.wp_act _ _ _ _).mpr ⟨trivial, fun tmpType s₁ he => ?_⟩
      cases he
      show Prog.wp _ _ (if _ then _ else _) _ _
      split
      · refine (Prog.wp_act _ _ _ _).mpr ⟨trivial, fun _ s₂ he => ?_⟩
        cases he
        exact hc.register hp
      · cases hf : findConversion table (pdpPacketGetDescription tmp s.pool) template with
        | none =>
            refine (Prog.wp_act _ _ _ _).mpr ⟨trivial, fun _ s₂ he => ?_⟩
            cases he
            exact hc
        | some c =>
            refine (Prog.wp_bind _ _ _ _).mpr
              (Prog.wp_mono (fun _ _ => id) (fun r s₂ h₂ => ?_) cached_runConversionProgram)
            refine (Prog.wp_act _ _ _ _).mpr ⟨trivial, fun _ s₃ he => ?_⟩
            cases he
            refine ih (h₂ ▸ hc) fun m hm => ?_
            rcases List.mem_append.mp (show m ∈ program.lines ++ c.program.lines from hm) with hm | hm
            · exact hp m hm
            · exact ⟨c, List.mem_of_find?_eq_some hf, hm⟩

theorem CacheFrom.convert {table : List Conversion} {n : Nat} {packet : Int} {template : Symbol}
    {s : Converter} (hc : CacheFrom table s.cached) :
    (pdpPacketConvert table n packet template).wp ConvOp.exec (fun _ _ => True)
      (fun _ s' => CacheFrom table s'.cached) s := by
  refine (Prog.wp_act _ _ _ _).mpr ⟨trivial, fun type s₁ he => ?_⟩
  cases he
  refine (Prog.wp_act _ _ _ _).mpr ⟨trivial, fun hit s₂ he => ?_⟩
  simp only [ConvOp.exec] at he
  split at he
  · cases he
    show Prog.wp _ _ (convertUncached _ _ _ _ _) _ _
    unfold convertUncached
    cases hf : findConversion table (pdpPacketGetDescription packet s.pool) template with
    | none => exact hc
    | some c =>
        refine (Prog.wp_bind _ _ _ _).mpr
          (Prog.wp_mono (fun _ _ => id) (fun r s₃ h₃ => ?_) cached_runConversionProgram)
        exact CacheFrom.loop (h₃ ▸ hc) fun m hm => ⟨c, List.mem_of_find?_eq_some hf, hm⟩
  · next hit =>
      cases he
      exact Prog.wp_mono (fun _ _ => id)
        (fun _ _ h => h ▸ hc.of_subset (findCached_spec hit).2) cached_runConversionProgram

/-- Whatever is in the cache was put there line by line from the table. -/
theorem Served.cacheFrom {table : List Conversion} {s : Converter} (hs : Served table s) :
    CacheFrom table s.cached := by
  induction hs with
  | start pool =>
      intro c hc
      cases hc
  | client pool _ ih => exact ih
  | @convert s s' n packet r template _ h ih =>
      exact Prog.post_of_wp (Q := fun _ s' => CacheFrom table s'.cached) (CacheFrom.convert ih) h

theorem yields_convert {table : List Conversion} (ht : TableHandsOver table) {n : Nat}
    {packet : Int} {template : Symbol} {s : Converter} (hs : Served table s) :
    Yields (pdpPacketConvert table n packet template) (fun r s' => Adds s.pool s' r) s := by
  refine yields_act fun type s₁ he => ?_
  cases he
  refine yields_act fun hit s₂ he => ?_
  simp only [ConvOp.exec] at he
  split at he
  · cases he
    show Yields (convertUncached _ _ _ _ _) _ _
    unfold convertUncached
    cases hf : findConversion table (pdpPacketGetDescription packet s.pool) template with
    | none => exact ⟨fun h => by simp [oneOf], fun h => absurd rfl h⟩
    | some c =>
        exact yields_bind (yields_runConversionProgram (ht.of_find hf))
          fun r s₃ h₃ => yields_convertLoop ht h₃
  · next program cached hit =>
      cases he
      refine yields_runConversionProgram fun m hm => ?_
      obtain ⟨⟨c, hc, rfl⟩, _⟩ := findCached_spec hit
      obtain ⟨d, hd, hmd⟩ := hs.cacheFrom c hc m hm
      exact ht d hd m hmd

/-! ## Which packets were released -/

/-- A handle, unless it is -1. -/
def real (h : Int) : List Int := if h = -1 then [] else [h]

/-- The packets that the methods returned. -/
def returned : List ((o : ConvOp) × o.Answer) → List Int
  | [] => []
  | ⟨.line _ _ _ _, r⟩ :: l => real r ++ returned l
  | _ :: l => returned l

def released : List ((o : ConvOp) × o.Answer) → List Int
  | [] => []
  | ⟨.markUnused p, _⟩ :: l => real p ++ released l
  | _ :: l => released l

theorem returned_append (l l' : List ((o : ConvOp) × o.Answer)) :
    returned (l ++ l') = returned l ++ returned l' := by
  induction l with
  | nil => rfl
  | cons x l ih =>
      obtain ⟨o, r⟩ := x
      cases o <;> simp [returned, ih]

theorem released_append (l l' : List ((o : ConvOp) × o.Answer)) :
    released (l ++ l') = released l ++ released l' := by
  induction l with
  | nil => rfl
  | cons x l ih =>
      obtain ⟨o, r⟩ := x
      cases o <;> simp [released, ih]

/-- Given `held`, the program returned and released packets so that `r` is
left. -/
def Balanced (held : List Int) (l : List ((o : ConvOp) × o.Answer)) (r : Int) : Prop :=
  (held ++ returned l).Perm (released l ++ real r)

theorem balanced_line {held : List Int} {m : Method} {rest : List Method} {packet p r : Int}
    {t : Symbol} {l : List ((o : ConvOp) × o.Answer)} (h : Balanced (held ++ real p) l r) :
    Balanced held (⟨.line m rest packet t, p⟩ :: l) r := by
  simp only [Balanced, returned, released, List.append_assoc] at h ⊢
  exact h

theorem balanced_markUnused {held : List Int} {p r : Int}
    {l : List ((o : ConvOp) × o.Answer)} (h : Balanced held l r) :
    Balanced (real p ++ held) (⟨.markUnused p, ()⟩ :: l) r := by
  simp only [Balanced, returned, released, List.append_assoc]
  exact h.append_left (real p)

theorem Balanced.perm {held held' : List Int} {r : Int} {l : List ((o : ConvOp) × o.Answer)}
    (h : Balanced held l r) (hp : held'.Perm held) : Balanced held' l r :=
  (hp.append_right _).trans h

theorem Balanced.append {held held' : List Int} {p r : Int}
    {l l' : List ((o : ConvOp) × o.Answer)} (h : Balanced held l p)
    (h' : Balanced (held' ++ real p) l' r) : Balanced (held' ++ held) (l ++ l') r := by
  simp only [Balanced, returned_append, released_append] at *
  have h₁ : (held' ++ held ++ (returned l ++ returned l')).Perm
      (held' ++ (released l ++ real p) ++ returned l') := by
    rw [List.append_assoc, List.append_assoc, ← List.append_assoc held]
    exact (h.append_right _).append_left _
  refine h₁.trans ?_
  have h₂ : (held' ++ (released l ++ real p) ++ returned l').Perm
      (released l ++ (held' ++ real p ++ returned l')) := by
    simp only [← List.append_assoc]
    exact ((List.perm_append_comm.append_right _).append_right _)
  refine h₂.trans ?_
  simp only [List.append_assoc] at h' ⊢
  exact h'.append_left _

theorem balanced_runLines {template : Symbol} {rest : List Method} {p : Int} {s : Converter} :
    (runLines template rest p).Logs ConvOp.exec (fun r l _ => Balanced (real p) l r) s := by
  induction rest generalizing p s with
  | nil => exact List.Perm.of_eq (by simp [returned, released])
  | cons m rest ih =>
      intro tmp s₁ _ _ s₂ _
      refine Prog.logs_mono (fun r l _ h => ?_) ih
      have hb : Balanced (real p ++ real tmp) (⟨.markUnused p, ()⟩ :: l) r :=
        balanced_markUnused h
      exact balanced_line hb

theorem balanced_runConversionProgram {program : Program} {packet : Int} {template : Symbol}
    {s : Converter} : (runConversionProgram program packet template).Logs ConvOp.exec
      (fun r l _ => Balanced [] l r) s := by
  intro p s₁ _
  exact Prog.logs_mono (fun r l _ h => balanced_line h) balanced_runLines

theorem balanced_convertLoop {table : List Conversion} {type template : Symbol} {n : Nat}
    {program : Program} {tmp : Int} {s : Converter} :
    (convertLoop table type template n program tmp).Logs ConvOp.exec
      (fun r l _ => Balanced (real tmp) l r) s := by
  induction n generalizing program tmp s with
  | zero => trivial
  | succ n ih =>
      intro tmpType s₁ _
      show Prog.Logs _ (if _ then _ else _) _ _
      split
      · intro _ s₂ _
        exact List.Perm.of_eq (by simp [returned, released])
      · cases findConversion table tmpType template with
        | none =>
            intro _ s₂ _
            exact List.Perm.of_eq (by simp [returned, released, real])
        | some c =>
            refine Prog.logs_bind
              (Prog.logs_mono (fun r l s₂ hl => ?_) balanced_runConversionProgram)
            intro _ s₃ _
            refine Prog.logs_mono (fun r' l' _ hl' => ?_) ih
            have h₂ : Balanced (real tmp ++ real r) (⟨.markUnused tmp, ()⟩ :: l') r' :=
              balanced_markUnused hl'
            have h₃ := hl.append h₂
            rw [List.append_nil] at h₃
            exact h₃

theorem balanced_convert {table : List Conversion} {n : Nat} {packet : Int} {template : Symbol}
    {s : Converter} : (pdpPacketConvert table n packet template).Logs ConvOp.exec
      (fun r l _ => Balanced [] l r) s := by
  intro type s₁ _ hit s₂ _
  cases hit with
  | some program => exact balanced_runConversionProgram
  | none =>
      show Prog.Logs _ (convertUncached _ _ _ _ _) _ _
      unfold convertUncached
      cases findConversion table type template with
      | none => exact List.Perm.of_eq (by simp [returned, released, real])
      | some c =>
          refine Prog.logs_bind
            (Prog.logs_mono (fun r l s₃ hl => ?_) balanced_runConversionProgram)
          refine Prog.logs_mono (fun r' l' _ hl' => ?_) balanced_convertLoop
          have h₂ : Balanced ([] ++ real r) l' r' := hl'
          exact hl.append h₂

/-! ## What is returned -/

/-- The loop returns a packet that matches the template, or -1. -/
theorem loop_matches {table : List Conversion} {type template : Symbol} {n : Nat}
    {program : Program} {tmp : Int} {s : Converter} :
    (convertLoop table type template n program tmp).wp ConvOp.exec (fun _ _ => True)
      (fun r s' => r ≠ -1 →
        pdpTypeDescriptionMatch (pdpPacketGetDescription r s'.pool) template = true) s := by
  induction n generalizing program tmp s with
  | zero => trivial
  | succ n ih =>
      refine (Prog.wp_act _ _ _ _).mpr ⟨trivial, fun tmpType s₁ he => ?_⟩
      cases he
      show Prog.wp _ _ (if _ then _ else _) _ _
      split
      · next hmatch =>
          refine (Prog.wp_act _ _ _ _).mpr ⟨trivial, fun _ s₂ he => ?_⟩
          cases he
          exact fun _ => hmatch
      · cases findConversion table (pdpPacketGetDescription tmp s.pool) template with
        | none => exact ⟨trivial, fun _ _ _ h => absurd rfl h⟩
        | some c =>
            refine (Prog.wp_bind _ _ _ _).mpr
              (Prog.wp_mono (fun _ _ => id) (fun r s₂ _ => ?_) cached_runConversionProgram)
            exact ⟨trivial, fun _ _ _ => ih⟩

/-- No program was cached for this conversion. -/
def Uncached (packet : Int) (template : Symbol) (s : Converter) : Prop :=
  findCached (pdpPacketGetDescription packet s.pool) template s.cached = none

theorem convert_matches {table : List Conversion} {n : Nat} {packet : Int} {template : Symbol}
    {s : Converter} (hu : Uncached packet template s) :
    (pdpPacketConvert table n packet template).wp ConvOp.exec (fun _ _ => True)
      (fun r s' => r ≠ -1 →
        pdpTypeDescriptionMatch (pdpPacketGetDescription r s'.pool) template = true) s := by
  refine (Prog.wp_act _ _ _ _).mpr ⟨trivial, fun type s₁ he => ?_⟩
  cases he
  refine (Prog.wp_act _ _ _ _).mpr ⟨trivial, fun hit s₂ he => ?_⟩
  unfold Uncached at hu
  simp only [ConvOp.exec, hu] at he
  cases he
  show Prog.wp _ _ (convertUncached _ _ _ _ _) _ _
  unfold convertUncached
  cases findConversion table (pdpPacketGetDescription packet s.pool) template with
  | none => exact fun h => absurd rfl h
  | some c =>
      exact (Prog.wp_bind _ _ _ _).mpr
        (Prog.wp_mono (fun _ _ => id) (fun r s₃ _ => loop_matches) cached_runConversionProgram)

/-- A conversion that returned `r` has given its caller one reference, to `r`,
and nothing else is left of it. -/
structure OneReference (table : List Conversion) (n : Nat) (packet : Int) (template : Symbol)
    (s : Converter) (r : Int) (s' : Converter) : Prop where
  counts : Adds s.pool s'.pool r
  source : usersOf s.pool packet ≠ 0 → usersOf s'.pool packet = usersOf s.pool packet
  intermediates : (returned ((pdpPacketConvert table n packet template).trace ConvOp.exec s)).Perm
    (released ((pdpPacketConvert table n packet template).trace ConvOp.exec s) ++ real r)
  result : Uncached packet template s → r ≠ -1 →
    pdpTypeDescriptionMatch (pdpPacketGetDescription r s'.pool) template = true

theorem convert_oneReference (table : List Conversion) (ht : TableHandsOver table)
    (s s' : Converter) (hs : Served table s) (n : Nat) (packet r : Int) (template : Symbol)
    (h : (pdpPacketConvert table n packet template).run ConvOp.exec s = .ok (r, s')) :
    OneReference table n packet template s r s' := by
  have hadds : Adds s.pool s'.pool r := post_of_yields (yields_convert ht hs) h
  refine ⟨hadds, fun hp => ?_, ?_, fun hu => Prog.post_of_wp (convert_matches hu) h⟩
  · rw [hadds.users]
    have h0 : oneOf r packet = 0 := by
      unfold oneOf
      rw [if_neg]
      rintro ⟨rfl, hr⟩
      exact hp (hadds.fresh hr)
    rw [h0, Nat.add_zero]
  · exact Prog.trace_of_logs balanced_convert h

/-- A method that makes a YCrCb image. -/
def newYCrCb (w h : Nat) : Method := fun _ _ s => (pdpPacketNewImageYCrCb w h).run s

/-- From planes to YCrCb, and from YCrCb in two lines to another size. -/
def twoLinesTable : List Conversion :=
  [⟨"image/multi/*".toList, "image/YCrCb/*".toList, ⟨newYCrCb 2 2, []⟩⟩,
    ⟨"image/YCrCb/*".toList, "image/YCrCb/*".toList, ⟨newYCrCb 4 4, [newYCrCb 8 8]⟩⟩]

/-- Two programs with three lines, of which two make packets that are released again. -/
theorem convert_oneReference_twoLines : ∃ s',
    (pdpPacketConvert twoLinesTable 2 0 "image/YCrCb/8x8".toList).run ConvOp.exec
      ⟨poolWith "image/multi/2x2x3".toList, []⟩ = .ok (3, s') ∧
    OneReference twoLinesTable 2 0 "image/YCrCb/8x8".toList
      ⟨poolWith "image/multi/2x2x3".toList, []⟩ 3 s' := by
  have ht : TableHandsOver twoLinesTable := by
    intro c hc m hm packet template s r s' h
    have hnew : ∃ w h, m = newYCrCb w h := by
      rcases List.mem_cons.mp hc with rfl | hc
      · exact ⟨2, 2, List.mem_singleton.mp hm⟩
      · obtain rfl := List.mem_singleton.mp hc
        rcases List.mem_cons.mp hm with rfl | hm
        · exact ⟨4, 4, rfl⟩
        · exact ⟨8, 8, List.mem_singleton.mp hm⟩
    obtain ⟨w, h', rfl⟩ := hnew
    exact adds_construct h
  have hrun : ∃ s', (pdpPacketConvert twoLinesTable 2 0 "image/YCrCb/8x8".toList).run ConvOp.exec
      ⟨poolWith "image/multi/2x2x3".toList, []⟩ = .ok (3, s') := ⟨_, rfl⟩
  obtain ⟨s', hs'⟩ := hrun
  exact ⟨s', hs', convert_oneReference twoLinesTable ht _ s' (.start _) 2 0 3 _ hs'⟩

end PureDataPacket
