/-
# `PureDataPacket.Type.Resampler` — the conversion loop and the resampler

`image/YCrCb/*` to `image/YCrCb/*` is the registered conversion that can come after
itself: its result is of the type that it starts from.  Whether it does is a question
of names.  The resampler reads the dimensions of the template and makes a packet of
these dimensions, whose description has them printed; a template that has them printed
the same way matches, and the loop of `_pdp_packet_convert` ends after one program.

| | |
| :-- | :-- |
| `ends_fillNew` | what has been made keeps its header while it is filled |
| `ends_convertInto` | a conversion leaves what its constructor makes, or nothing |
| `yields_resampler` | what the resampler leaves is described with the dimensions that it reads |
| `resample_ends` | a template with its dimensions printed as usual |
-/
import PureDataPacket.Kernel.CloneRw
import PureDataPacket.Kernel.ConvertLoop
import PureDataPacket.Type.Contract

namespace PureDataPacket

open Pool Relation

section Into

variable {make : PoolProg Int} {t n : Nat} {m : Meta} {packet r : Int} {s : Pool}

theorem ends_fillNew {data : DataArea} (hr : s.pdpPacketHeader r = some ⟨m, 1, data⟩)
    (work : Option (List Step)) : (fillNew packet r work).Ends PoolOp.exec AnyFault
      (fun r' s' => pdpPacketGetDescription r' s' = m.desc.getD symUnknown) s := by
  have hne : r ≠ -1 := by
    rintro rfl
    rw [header_neg_one] at hr
    cases hr
  unfold fillNew
  rw [if_neg hne]
  cases work with
  | none => exact Prog.ends_crash trivial
  | some steps =>
      refine ends_header ?_
      cases s.pdpPacketHeader packet with
      | none => exact Prog.ends_crash trivial
      | some src =>
          refine ends_header ?_
          rw [hr]
          show Prog.Ends PoolOp.exec AnyFault (writeFilled r (runSteps src.data.bytes steps
            data.bytes)) _ s
          cases runSteps src.data.bytes steps data.bytes with
          | none => exact Prog.ends_crash trivial
          | some bytes =>
              refine Prog.ends_act (fun _ _ => trivial) fun _ s' hw => Prog.ends_done ?_
              obtain ⟨d, _, hd, hputs⟩ := memcpyData_spec (PoolOp.effect_eq_ok hw)
              obtain rfl := Option.some.inj (hd.symm.trans hr)
              unfold pdpPacketGetDescription
              rcases hdesc : m.desc with _ | d <;> simp only [hputs.self, hdesc, Option.getD]

theorem ends_convertInto (hc : Constructs make t n m) (hn : n < 2 ^ 32)
    (work : Option (List Step)) : (convertInto packet make work).Ends PoolOp.exec AnyFault
      (fun r s' => pdpPacketGetDescription r s' = symInvalid ∨
        pdpPacketGetDescription r s' = m.desc.getD symUnknown) s := by
  have hmake : make.Ends PoolOp.exec AnyFault (fun r s₁ => r = -1 ∨
      ∃ data, s₁.pdpPacketHeader r = some ⟨m, 1, data⟩) s := by
    unfold Prog.Ends
    rcases hc.run_cases hn s with ⟨e, he, -⟩ | ⟨s₁, he⟩ | ⟨-, r, s₁, data, he, hr, -⟩
    · rw [show Prog.run PoolOp.exec make s = .error e from he]
      trivial
    · rw [show Prog.run PoolOp.exec make s = .ok (-1, s₁) from he]
      exact Or.inl rfl
    · rw [show Prog.run PoolOp.exec make s = .ok (r, s₁) from he]
      exact Or.inr ⟨data, hr⟩
  refine Prog.ends_bind hmake fun r s₁ hr => ?_
  rcases hr with rfl | ⟨data, hr⟩
  · exact Prog.ends_done (Or.inl (description_neg_one s₁))
  · exact Prog.ends_mono (ends_fillNew hr work) fun _ _ h => Or.inr h

end Into

/-- The entry of the resampler in `conversion_list`. -/
def resampler : Conversion :=
  Registration.conversion ⟨"image/YCrCb/*".toList, "image/YCrCb/*".toList, .imageResampleYCrCb⟩

theorem yields_resampler {template u : Symbol} {dims : List Int}
    (hdims : pdpDescriptionGetDims template = some dims)
    (h : MayYield resampler.program template u) : u = symInvalid ∨
      u = PacketKind.imageYCrCb.description (ofInt32 (dims.getD 0 0)) (ofInt32 (dims.getD 1 0))
        0 := by
  obtain ⟨m, hm, packet, s, r, s', hrun, rfl⟩ := h
  obtain rfl := Option.some.inj hm
  have hmade := (PacketKind.imageYCrCb).constructs (ofInt32 (dims.getD 0 0))
    (ofInt32 (dims.getD 1 0)) 0
  have hends : (pdpPacketImageConvertResampleYCrCb packet template).Ends PoolOp.exec AnyFault
      (fun r s' => pdpPacketGetDescription r s' = symInvalid ∨ pdpPacketGetDescription r s' =
        PacketKind.imageYCrCb.description (ofInt32 (dims.getD 0 0)) (ofInt32 (dims.getD 1 0))
          0) s := by
    refine ends_header ?_
    cases s.pdpPacketHeader packet with
    | none => exact Prog.ends_crash trivial
    | some header =>
        show Prog.Ends _ _ (checked (pdpDescriptionGetDims template) _) _ _
        rw [hdims]
        refine Prog.ends_mono (ends_convertInto hmade (PacketKind.dataSize_lt _ _ _ _) _)
          fun r s' h => h.imp_right fun h => h.trans ?_
        rw [PacketKind.desc_header]
        rfl
  exact hends.ok hrun

/-- Nothing is registered for a packet that is not there. -/
theorem findConversion_invalid (template : Symbol) :
    findConversion conversionList symInvalid template = none := by
  have hnone : ∀ c ∈ pdpImageSetup ++ pdpBitmapSetup,
      pdpTypeDescriptionMatch symInvalid c.srcPattern = false := by decide
  refine List.find?_eq_none.mpr fun c hc => ?_
  obtain ⟨a, ha, rfl⟩ := List.mem_map.mp hc
  rw [show a.conversion.srcPattern = a.srcPattern from rfl, hnone a ha]
  exact Bool.false_ne_true

/-- With the conversions of both types registered: a template that has its dimensions
printed as the description of a packet has them is reached, or given up, after the
resampler has run once. -/
theorem resample_ends {template : Symbol} {dims : List Int} {packet : Int} {s : Converter}
    (hdims : pdpDescriptionGetDims template = some dims)
    (hprinted : PacketKind.imageYCrCb.description (ofInt32 (dims.getD 0 0))
      (ofInt32 (dims.getD 1 0)) 0 = template)
    (hfirst : findConversion conversionList (pdpPacketGetDescription packet s.pool) template =
      some resampler) : ConvertEnds conversionList packet template s := by
  have hlast : ∀ b, ¬ Successor conversionList template resampler b := by
    rintro b ⟨t, hyields, hno, hfind⟩
    rcases yields_resampler hdims hyields with rfl | rfl
    · rw [findConversion_invalid] at hfind
      cases hfind
    · rw [hprinted, pdpTypeDescriptionMatch_self] at hno
      cases hno
  have hends := ends_pdpPacketConvert conversionList template packet s fun c hc hcycles => ?_
  · exact ⟨conversionList.length, fun h => hends.error h rfl⟩
  · obtain rfl := Option.some.inj (hc.symm.trans hfirst)
    obtain ⟨b, hreach, hcycle⟩ := hcycles
    rcases hreach.cases_head with rfl | ⟨b', hstep, -⟩
    · obtain ⟨b', hstep, -⟩ := TransGen.head'_iff.mp hcycle
      exact hlast b' hstep
    · exact hlast b' hstep

theorem resample_ends_eight : ConvertEnds conversionList 0 "image/YCrCb/8x8".toList
    ⟨poolWith "image/YCrCb/4x4".toList, []⟩ :=
  @resample_ends _ [8, 8] _ _ (by decide) (by decide) rfl

end PureDataPacket
