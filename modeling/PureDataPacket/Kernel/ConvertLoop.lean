/-
# `PureDataPacket.Kernel.ConvertLoop` — does the conversion loop end?

The loop of `_pdp_packet_convert` goes on as long as what it has does not match
the template and some registered program fits.  It does not notice when it runs
the same program again.

Whether it can go round for ever is a question about what the methods return for
the template: one conversion comes after another if some packet that the first may
leave is described so that the second is found for it.  Where no cycle of these can
be reached, the loop ends.

Of methods that are only known to keep to their patterns, `Leads` says which
conversion may come after which, on the patterns alone.  The loop ends for every
choice of such methods if and only if no cycle of `Leads` can be reached.

| | |
| :-- | :-- |
| `MayYield` | for the template, the program may leave a packet described `t`, or -1 |
| `Successor` | after the conversion `a`, the loop may find `b` |
| `Cycles` | a cycle of conversions can be reached from `a` |
| `Ended` | an end, be it a result or a fault |
| `ends_convertLoop` | the loop ends, by induction on the conversions that have not been run |
| `Leads` | after a program with the patterns `a`, one with the patterns `b` may run |
| `Loops` | a cycle can be reached from `a` |
-/
import Mathlib.Logic.Relation
import Mathlib.Data.List.Perm.Subperm
import PureDataPacket.Kernel.Convert

namespace PureDataPacket

open Pool Relation

/-! ## Methods that keep to their pattern -/

/-- The method returns -1, or a new packet whose description matches `dst`. -/
def Method.Honest (dst : Symbol) (m : Method) : Prop :=
  ∀ packet template s r s', m packet template s = .ok (r, s') → r = -1 ∨
    (∀ q, s.pdpPacketHeader r = some q → q.users = 0) ∧
      ∃ q d, s'.pdpPacketHeader r = some q ∧ q.users = 1 ∧ q.desc = some d ∧
        pdpTypeDescriptionMatch d dst = true

/-- Every method of the table keeps to the pattern it was registered for. -/
def TableHonest (table : List Conversion) : Prop :=
  ∀ c ∈ table, ∀ m ∈ c.program.lines, m.Honest c.dstPattern

/-! ## The patterns -/

abbrev Patterns : Type := Symbol × Symbol

def Conversion.patterns (c : Conversion) : Patterns := (c.srcPattern, c.dstPattern)

/-- What `_pdp_type_find_conversion_program` finds, as far as the patterns go. -/
def findPatterns (l : List Patterns) (src dst : Symbol) : Option Patterns :=
  l.find? fun p => pdpTypeDescriptionMatch src p.1 && pdpTypeDescriptionMatch dst p.2

theorem findPatterns_map (table : List Conversion) (src dst : Symbol) :
    findPatterns (table.map Conversion.patterns) src dst =
      (findConversion table src dst).map Conversion.patterns := by
  unfold findPatterns findConversion
  rw [List.find?_map]
  rfl

/-- A description that a packet may have after a program for `dst`. -/
def MayBe (dst t : Symbol) : Prop := pdpTypeDescriptionMatch t dst = true ∨ t = symInvalid

/-- After a program with the patterns `a`, one with the patterns `b` may run. -/
def Leads (l : List Patterns) (template : Symbol) (a b : Patterns) : Prop :=
  ∃ t, MayBe a.2 t ∧ pdpTypeDescriptionMatch t template = false ∧
    findPatterns l t template = some b

/-- A cycle can be reached from `a`. -/
def Loops (l : List Patterns) (template : Symbol) (a : Patterns) : Prop :=
  ∃ b, ReflTransGen (Leads l template) a b ∧ TransGen (Leads l template) b b

/-! ## What the methods return -/

/-- For the template, the program may leave a packet described `t`, or -1. -/
def MayYield (program : Program) (template t : Symbol) : Prop :=
  ∃ m, program.lines.getLast? = some m ∧ ∃ packet s r s',
    m packet template s = .ok (r, s') ∧ pdpPacketGetDescription r s' = t

/-- After the conversion `a`, the loop may find `b`. -/
def Successor (table : List Conversion) (template : Symbol) (a b : Conversion) : Prop :=
  ∃ t, MayYield a.program template t ∧ pdpTypeDescriptionMatch t template = false ∧
    findConversion table t template = some b

/-- A cycle of conversions can be reached from `a`. -/
def Cycles (table : List Conversion) (template : Symbol) (a : Conversion) : Prop :=
  ∃ b, ReflTransGen (Successor table template) a b ∧ TransGen (Successor table template) b b

/-! ## No cycle: the loop ends -/

theorem Method.Honest.mayBe {dst : Symbol} {m : Method} (hm : m.Honest dst) {packet r : Int}
    {template : Symbol} {s s' : Pool} (h : m packet template s = .ok (r, s')) :
    MayBe dst (pdpPacketGetDescription r s') := by
  rcases hm _ _ _ _ _ h with rfl | ⟨_, q, d, hq, _, hd, hmatch⟩
  · exact Or.inr (description_neg_one s')
  · left
    unfold pdpPacketGetDescription
    simp only [hq, hd]
    exact hmatch

/-- An end, be it a result or a fault. -/
def Ended (e : Stop) : Prop := e ≠ .outOfFuel

section Ends

variable {α : Type} {Q : α → Converter → Prop} {s : Converter}

theorem ends_line {m : Method} {rest : List Method} {packet : Int} {template : Symbol}
    {k : Int → ConvProg α} (hk : ∀ r pool, m packet template s.pool = .ok (r, pool) →
      (k r).Ends ConvOp.exec Ended Q { s with pool := pool }) :
    Prog.Ends ConvOp.exec Ended (.act (.line m rest packet template) k) Q s := by
  refine Prog.ends_act (fun e he => ?_) fun r s' he => ?_
  · simp only [ConvOp.exec] at he
    split at he
    · cases he
    · cases he
      exact fun h => by cases h
  · simp only [ConvOp.exec] at he
    split at he
    · next hm =>
        cases he
        exact hk _ _ hm
    · cases he

theorem ends_markUnused {packet : Int} {k : Unit → ConvProg α}
    (hk : (k ()).Ends ConvOp.exec Ended Q { s with pool := pdpPacketMarkUnused packet s.pool }) :
    Prog.Ends ConvOp.exec Ended (.act (.markUnused packet) k) Q s :=
  Prog.ends_act (fun _ he => by cases he) fun _ _ he => by
    cases he
    exact hk

theorem ends_description {packet : Int} {k : Symbol → ConvProg α}
    (hk : (k (pdpPacketGetDescription packet s.pool)).Ends ConvOp.exec Ended Q s) :
    Prog.Ends ConvOp.exec Ended (.act (.description packet) k) Q s :=
  Prog.ends_act (fun _ he => by cases he) fun _ _ he => by
    cases he
    exact hk

end Ends

/-- The remaining lines of a program always end, with what the last one
returned. -/
theorem ends_runLines {template : Symbol} {P : Symbol → Prop} {rest : List Method} {p : Int}
    {s : Converter} (hlast : ∀ m, rest.getLast? = some m → ∀ packet pool r pool',
      m packet template pool = .ok (r, pool') → P (pdpPacketGetDescription r pool'))
    (hp : rest = [] → P (pdpPacketGetDescription p s.pool)) :
    (runLines template rest p).Ends ConvOp.exec Ended
      (fun r s' => P (pdpPacketGetDescription r s'.pool)) s := by
  induction rest generalizing p s with
  | nil => exact Prog.ends_done (hp rfl)
  | cons m rest ih =>
      refine ends_line fun tmp pool h => ends_markUnused ?_
      refine ih (fun m' hm' => ?_) fun hnil => ?_
      · refine hlast m' ?_
        rw [List.getLast?_cons, hm']
        rfl
      · subst hnil
        show P (pdpPacketGetDescription tmp (pdpPacketMarkUnused p pool))
        rw [description_markUnused]
        exact hlast m rfl _ _ _ _ h

theorem ends_runConversionProgram (program : Program) (packet : Int) (template : Symbol)
    (s : Converter) : (runConversionProgram program packet template).Ends ConvOp.exec Ended
      (fun r s' => MayYield program template (pdpPacketGetDescription r s'.pool)) s := by
  refine ends_line fun p pool h => ends_runLines (fun m hm packet' s₁ r s₂ hr => ?_) fun hnil => ?_
  · refine ⟨m, ?_, packet', s₁, r, s₂, hr, rfl⟩
    unfold Program.lines
    rw [List.getLast?_cons, hm]
    rfl
  · refine ⟨program.first, ?_, packet, s.pool, p, pool, h, rfl⟩
    unfold Program.lines
    rw [hnil]
    rfl

/-- A cached program is run once, whatever its methods do. -/
theorem ends_runLines_any {template : Symbol} {rest : List Method} {p : Int} {s : Converter} :
    (runLines template rest p).Ends ConvOp.exec Ended (fun _ _ => True) s := by
  induction rest generalizing p s with
  | nil => exact Prog.ends_done trivial
  | cons m rest ih => exact ends_line fun _ _ _ => ends_markUnused ih

/-- The loop, `visited` being the conversions that have been run and `a` the last
of them.  None is run twice, so the list is never longer than the table. -/
theorem ends_convertLoop {table : List Conversion} {type template : Symbol}
    {a₀ a : Conversion} {visited : List Conversion} {n : Nat} {program : Program} {tmp : Int}
    {s : Converter} (hno : ¬ Cycles table template a₀)
    (hreach : ∀ v ∈ a :: visited, ReflTransGen (Successor table template) a₀ v)
    (hpast : ∀ v ∈ visited, TransGen (Successor table template) v a)
    (hnodup : (a :: visited).Nodup) (hsub : a :: visited ⊆ table)
    (htmp : MayYield a.program template (pdpPacketGetDescription tmp s.pool))
    (hfuel : table.length < n + (a :: visited).length) :
    (convertLoop table type template n program tmp).Ends ConvOp.exec Ended (fun _ _ => True) s := by
  induction n generalizing a visited program tmp s with
  | zero =>
      have hle := (hnodup.subperm hsub).length_le
      omega
  | succ n ih =>
      refine ends_description ?_
      show Prog.Ends _ _ (if _ then _ else _) _ _
      split
      · exact Prog.ends_act (fun _ he => by cases he) fun _ _ _ => Prog.ends_done trivial
      · next hmatch =>
          cases hf : findConversion table (pdpPacketGetDescription tmp s.pool) template with
          | none => exact ends_markUnused (Prog.ends_done trivial)
          | some c =>
              have hc : c ∈ table := List.mem_of_find?_eq_some hf
              have hlead : Successor table template a c := ⟨_, htmp, by simpa using hmatch, hf⟩
              have hnew : c ∉ a :: visited := by
                intro hm
                have hcycle : TransGen (Successor table template) c c := by
                  rcases List.mem_cons.mp hm with he | hv
                  · exact .single (he ▸ hlead)
                  · exact (hpast _ hv).tail hlead
                exact hno ⟨c, hreach _ hm, hcycle⟩
              refine Prog.ends_bind (ends_runConversionProgram c.program tmp template s)
                fun r s₁ hr => ?_
              refine ends_markUnused (ih ?_ ?_ (List.nodup_cons.mpr ⟨hnew, hnodup⟩) ?_ ?_ ?_)
              · intro v hv
                rcases List.mem_cons.mp hv with rfl | hv
                · exact (hreach a List.mem_cons_self).tail hlead
                · exact hreach v hv
              · intro v hv
                rcases List.mem_cons.mp hv with rfl | hv
                · exact .single hlead
                · exact (hpast v hv).tail hlead
              · exact List.cons_subset.mpr ⟨hc, hsub⟩
              · show MayYield c.program template
                  (pdpPacketGetDescription r (pdpPacketMarkUnused tmp s₁.pool))
                rw [description_markUnused]
                exact hr
              · simp only [List.length_cons] at hfuel ⊢
                omega

/-- Where no cycle of conversions can be reached, as many iterations as there are
conversions are enough. -/
theorem ends_pdpPacketConvert (table : List Conversion) (template : Symbol) (packet : Int)
    (s : Converter) (hno : ∀ c, findConversion table (pdpPacketGetDescription packet s.pool)
      template = some c → ¬ Cycles table template c) :
    (pdpPacketConvert table table.length packet template).Ends ConvOp.exec Ended
      (fun _ _ => True) s := by
  refine ends_description (Prog.ends_act (fun e he => ?_) fun hit s₁ he => ?_)
  · simp only [ConvOp.exec] at he
    split at he <;> cases he
  · cases hit with
    | some program => exact ends_line fun _ _ _ => ends_runLines_any
    | none =>
        have hs : s₁ = s := by
          simp only [ConvOp.exec] at he
          split at he
          · cases he
            rfl
          · cases he
        subst hs
        show Prog.Ends _ _ (convertUncached _ _ _ _ _) _ _
        unfold convertUncached
        cases hf : findConversion table (pdpPacketGetDescription packet s₁.pool) template with
        | none => exact Prog.ends_done trivial
        | some c =>
            have hc : c ∈ table := List.mem_of_find?_eq_some hf
            refine Prog.ends_bind (ends_runConversionProgram c.program packet template s₁)
              fun r s₂ hr => ?_
            have hnodup : [c].Nodup := List.nodup_cons.mpr ⟨List.not_mem_nil, List.nodup_nil⟩
            refine ends_convertLoop (hno c hf) (fun v hv => ?_) (fun v hv => by cases hv) hnodup
              (List.cons_subset.mpr ⟨hc, List.nil_subset _⟩) hr (by simp)
            rw [List.mem_singleton.mp hv]

/-- One conversion after another, of methods that keep to their patterns. -/
theorem Successor.leads {table : List Conversion} (ht : TableHonest table) {template : Symbol}
    {a b : Conversion} (ha : a ∈ table) (h : Successor table template a b) :
    Leads (table.map Conversion.patterns) template a.patterns b.patterns := by
  obtain ⟨t, ⟨m, hm, packet, s, r, s', hrun, rfl⟩, hmatch, hfind⟩ := h
  refine ⟨_, (ht a ha m (List.mem_of_getLast? hm)).mayBe hrun, hmatch, ?_⟩
  rw [findPatterns_map, hfind]
  rfl

theorem Successor.mem {table : List Conversion} {template : Symbol} {a b : Conversion}
    (h : Successor table template a b) : b ∈ table := by
  obtain ⟨t, -, -, hfind⟩ := h
  exact List.mem_of_find?_eq_some hfind

/-- A cycle of such conversions is one of their patterns. -/
theorem Cycles.loops {table : List Conversion} (ht : TableHonest table) {template : Symbol}
    {a : Conversion} (ha : a ∈ table) (h : Cycles table template a) :
    Loops (table.map Conversion.patterns) template a.patterns := by
  obtain ⟨b, hab, hbb⟩ := h
  have hreach : ∀ {c}, ReflTransGen (Successor table template) a c →
      c ∈ table ∧ ReflTransGen (Leads (table.map Conversion.patterns) template) a.patterns
        c.patterns := by
    intro c hc
    induction hc with
    | refl => exact ⟨ha, .refl⟩
    | tail _ hstep ih => exact ⟨hstep.mem, ih.2.tail (hstep.leads ht ih.1)⟩
  have hb := (hreach hab).1
  have hcycle : ∀ {c}, TransGen (Successor table template) b c →
      c ∈ table ∧ TransGen (Leads (table.map Conversion.patterns) template) b.patterns
        c.patterns := by
    intro c hc
    induction hc with
    | single hstep => exact ⟨hstep.mem, .single (hstep.leads ht hb)⟩
    | tail _ hstep ih => exact ⟨hstep.mem, ih.2.tail (hstep.leads ht ih.1)⟩
  exact ⟨b.patterns, (hreach hab).2, (hcycle hbb).2⟩

/-! ## A cycle: methods that go round it -/

/-- A method that puts a new packet described `t` into a slot of its own. -/
def deliver (t : Symbol) : Method := fun _ _ s =>
  .ok (s.pdpPoolSize, s.grow.put s.pdpPoolSize
    (some { Packet.fresh 0 ⟨[], DataArea.empty_size_lt⟩ with desc := some t }))

def refuse : Method := fun _ _ s => .ok (-1, s)

/-- A method that leaves a packet described `t` if it may, and none otherwise. -/
def leave (dst t : Symbol) : Method :=
  if pdpTypeDescriptionMatch t dst = true then deliver t else refuse

theorem header_pdpPoolSize (s : Pool) : s.pdpPacketHeader s.pdpPoolSize = none := by
  unfold pdpPacketHeader
  rw [if_neg (by omega)]

theorem header_deliver (s : Pool) (x : Packet) :
    (s.grow.put s.pdpPoolSize (some x)).pdpPacketHeader s.pdpPoolSize = some x := by
  have hpos := s.size_pos
  have hlt : s.pdpPoolSize < s.grow.pdpPoolSize := by
    show s.pdpPool.length < (s.pdpPool ++ List.replicate s.pdpPoolSize none).length
    rw [List.length_append, List.length_replicate]
    show s.pdpPool.length < s.pdpPool.length + s.pdpPool.length
    omega
  rw [header_put (by omega) (by exact_mod_cast hlt), if_pos rfl]

theorem honest_refuse (dst : Symbol) : refuse.Honest dst := by
  intro packet template s r s' h
  cases h
  exact Or.inl rfl

theorem honest_deliver {dst t : Symbol} (h : pdpTypeDescriptionMatch t dst = true) :
    (deliver t).Honest dst := by
  intro packet template s r s' hr
  cases hr
  refine Or.inr ⟨fun q hq => ?_, _, t, header_deliver s _, rfl, rfl, h⟩
  rw [header_pdpPoolSize] at hq
  cases hq

theorem honest_leave (dst t : Symbol) : (leave dst t).Honest dst := by
  unfold leave
  split
  · next h => exact honest_deliver h
  · exact honest_refuse dst

/-- The table with the given patterns whose methods leave what `f` says. -/
def tableLeaving (l : List Patterns) (f : Patterns → Symbol) : List Conversion :=
  l.map fun a => ⟨a.1, a.2, ⟨leave a.2 (f a), []⟩⟩

theorem patterns_tableLeaving (l : List Patterns) (f : Patterns → Symbol) :
    (tableLeaving l f).map Conversion.patterns = l := by
  unfold tableLeaving
  rw [List.map_map]
  exact List.map_id l

theorem honest_tableLeaving (l : List Patterns) (f : Patterns → Symbol) :
    TableHonest (tableLeaving l f) := by
  intro c hc m hm
  obtain ⟨a, _, rfl⟩ := List.mem_map.mp hc
  rw [List.mem_singleton.mp hm]
  exact honest_leave a.2 (f a)

theorem findConversion_tableLeaving {l : List Patterns} {f : Patterns → Symbol}
    {src dst : Symbol} {a : Patterns} (h : findPatterns l src dst = some a) :
    findConversion (tableLeaving l f) src dst = some ⟨a.1, a.2, ⟨leave a.2 (f a), []⟩⟩ := by
  unfold findConversion tableLeaving
  rw [List.find?_map]
  exact congrArg (Option.map _) h

/-- The method returns, with a packet described `t` or with -1. -/
theorem run_leave {dst t : Symbol} (ht : MayBe dst t) (packet : Int) (template : Symbol)
    (s : Pool) : ∃ r s', leave dst t packet template s = .ok (r, s') ∧
      pdpPacketGetDescription r s' = t := by
  unfold leave
  split
  · refine ⟨_, _, rfl, ?_⟩
    unfold pdpPacketGetDescription
    rw [header_deliver]
  · next hmatch =>
      have he : t = symInvalid := ht.resolve_left hmatch
      exact ⟨_, _, rfl, he ▸ description_neg_one s⟩

/-- What comes after `a` on the way round. -/
def Onward (l : List Patterns) (template : Symbol) (a : Patterns) (t : Symbol) : Prop :=
  MayBe a.2 t ∧ pdpTypeDescriptionMatch t template = false ∧
    ∃ b, findPatterns l t template = some b ∧ Loops l template b

theorem Loops.onward {l : List Patterns} {template : Symbol} {a : Patterns}
    (h : Loops l template a) : ∃ t, Onward l template a t := by
  obtain ⟨b, hab, hbb⟩ := h
  rcases hab.cases_head with rfl | ⟨c, ⟨t, hm, hn, hf⟩, hcb⟩
  · obtain ⟨c, ⟨t, hm, hn, hf⟩, hcb⟩ := (TransGen.head'_iff).mp hbb
    exact ⟨t, hm, hn, c, hf, a, hcb, hbb⟩
  · exact ⟨t, hm, hn, c, hf, b, hcb, hbb⟩

theorem outOfFuel_convertLoop {l : List Patterns} {type template : Symbol}
    {f : Patterns → Symbol} (hf : ∀ a ∈ l, Loops l template a → Onward l template a (f a))
    {a : Patterns} (hal : a ∈ l) (ha : Loops l template a) {n : Nat} {program : Program} {tmp : Int}
    {s : Converter} (htmp : pdpPacketGetDescription tmp s.pool = f a) :
    (convertLoop (tableLeaving l f) type template n program tmp).run ConvOp.exec s =
      .error .outOfFuel := by
  induction n generalizing a program tmp s with
  | zero => rfl
  | succ n ih =>
      obtain ⟨_, hn, b, hfind, hb⟩ := hf a hal ha
      have hbl : b ∈ l := List.mem_of_find?_eq_some hfind
      obtain ⟨hmay, _⟩ := hf b hbl hb
      obtain ⟨r, pool, hrun, hdesc⟩ := run_leave hmay tmp template s.pool
      have hdescr : ConvOp.exec (.description tmp) s = .ok (f a, s) := by
        simp only [ConvOp.exec, htmp]
      have hline : ConvOp.exec (.line (leave b.2 (f b)) [] tmp template) s =
          .ok (r, { s with pool := pool }) := by
        simp only [ConvOp.exec, hrun]
      refine (Prog.run_act_ok hdescr).trans ?_
      show Prog.run _ (if _ then _ else _) _ = _
      rw [if_neg (by simp [hn]), findConversion_tableLeaving hfind]
      refine (Prog.run_act_ok hline).trans ((Prog.run_act_ok rfl).trans (ih hbl hb ?_))
      show pdpPacketGetDescription r (pdpPacketMarkUnused tmp pool) = f b
      rw [description_markUnused]
      exact hdesc

theorem outOfFuel_convert {l : List Patterns} {template : Symbol}
    {f : Patterns → Symbol} (hf : ∀ a ∈ l, Loops l template a → Onward l template a (f a))
    {a : Patterns} (ha : Loops l template a) {n : Nat} {packet : Int} {pool : Pool}
    (hfind : findPatterns l (pdpPacketGetDescription packet pool) template = some a) :
    (pdpPacketConvert (tableLeaving l f) n packet template).run ConvOp.exec ⟨pool, []⟩ =
      .error .outOfFuel := by
  have hal : a ∈ l := List.mem_of_find?_eq_some hfind
  obtain ⟨hmay, _⟩ := hf a hal ha
  obtain ⟨r, pool', hrun, hdesc⟩ := run_leave hmay packet template pool
  have hline : ConvOp.exec (.line (leave a.2 (f a)) [] packet template) ⟨pool, []⟩ =
      .ok (r, ⟨pool', []⟩) := by
    simp only [ConvOp.exec, hrun]
  refine (Prog.run_act_ok rfl).trans ((Prog.run_act_ok rfl).trans ?_)
  show Prog.run _ (convertUncached _ _ _ _ _) _ = _
  unfold convertUncached
  rw [findConversion_tableLeaving hfind]
  exact (Prog.run_act_ok hline).trans (outOfFuel_convertLoop hf hal ha hdesc)

/-! ## Exactly when -/

/-- Registered patterns, the type of the source packet and the template: the
conversion ends for all methods that keep to their patterns if and only if no
cycle of the patterns can be reached. -/
theorem convertEnds_iff (l : List Patterns) (type template : Symbol) :
    (∀ table : List Conversion, table.map Conversion.patterns = l → TableHonest table →
      ∀ (packet : Int) (s : Converter), pdpPacketGetDescription packet s.pool = type →
        ConvertEnds table packet template s) ↔
    ∀ a, findPatterns l type template = some a → ¬ Loops l template a := by
  constructor
  · intro hends a hfind hloops
    have hnext : ∀ a, ∃ t, Loops l template a → Onward l template a t := fun a =>
      (em (Loops l template a)).elim (fun h => h.onward.imp fun t ht _ => ht)
        fun h => ⟨symInvalid, fun h' => absurd h' h⟩
    choose f hf using hnext
    obtain ⟨n, hn⟩ := hends (tableLeaving l f) (patterns_tableLeaving l f)
      (honest_tableLeaving l f) 0 ⟨poolWith type, []⟩ (description_poolWith type)
    exact hn (outOfFuel_convert (fun a _ => hf a) hloops (by rw [description_poolWith]; exact hfind))
  · rintro hno table rfl ht packet s rfl
    have hends := ends_pdpPacketConvert table template packet s fun c hf hcycles => ?_
    · exact ⟨table.length, fun h => hends.error h rfl⟩
    · refine hno c.patterns ?_ (hcycles.loops ht (List.mem_of_find?_eq_some hf))
      rw [findPatterns_map, hf]
      rfl

end PureDataPacket
