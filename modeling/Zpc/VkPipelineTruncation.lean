import Zpc.VkPipelineJson

/-!
# Binary descriptions that end early

A short read leaves the old value and a failed stream, which neither `read_desc` nor the descriptor cache asks for. Only a
header that its defaults do not complete is reported.
-/
namespace Zpc.VkPipeline
open BinaryStream

/-! ## Writers add bytes -/

theorem VertexInputStateDesc.appends (desc : VertexInputStateDesc) : Appends desc.writeDesc := by
  apply (appends_podVector desc.bindings).bind
  exact appends_podVector desc.attributes

theorem InputAssemblyStateDesc.appends (desc : InputAssemblyStateDesc) : Appends desc.writeDesc := by
  apply (appends_pod desc.topology).bind
  exact appends_pod desc.primitiveRestartEnable

theorem ViewportStateDesc.appends (desc : ViewportStateDesc) : Appends desc.writeDesc := by
  apply (appends_pod desc.viewportCount).bind
  exact appends_pod desc.scissorCount

theorem RasterizationStateDesc.appends (desc : RasterizationStateDesc) : Appends desc.writeDesc := by
  apply (appends_pod desc.depthClampEnable).bind
  apply (appends_pod desc.rasterizerDiscardEnable).bind
  apply (appends_pod desc.polygonMode).bind
  apply (appends_pod desc.cullMode).bind
  apply (appends_pod desc.frontFace).bind
  apply (appends_pod desc.depthBiasEnable).bind
  apply (appends_pod desc.lineWidth).bind
  apply (appends_pod desc.depthBiasConstantFactor).bind
  apply (appends_pod desc.depthBiasClamp).bind
  exact appends_pod desc.depthBiasSlopeFactor

theorem MultisampleStateDesc.appends (desc : MultisampleStateDesc) : Appends desc.writeDesc := by
  apply (appends_pod desc.sampleShadingEnable).bind
  apply (appends_pod desc.rasterizationSamples).bind
  apply (appends_pod desc.minSampleShading).bind
  apply (appends_pod desc.alphaToCoverageEnable).bind
  exact appends_pod desc.alphaToOneEnable

theorem DepthStencilStateDesc.appends (desc : DepthStencilStateDesc) : Appends desc.writeDesc := by
  apply (appends_pod desc.depthTestEnable).bind
  apply (appends_pod desc.depthWriteEnable).bind
  apply (appends_pod desc.depthCompareOp).bind
  apply (appends_pod desc.depthBoundsTestEnable).bind
  apply (appends_pod desc.stencilTestEnable).bind
  apply (appends_pod desc.front).bind
  apply (appends_pod desc.back).bind
  apply (appends_pod desc.minDepthBounds).bind
  exact appends_pod desc.maxDepthBounds

theorem ColorBlendStateDesc.appends (desc : ColorBlendStateDesc) : Appends desc.writeDesc := by
  apply (appends_pod desc.logicOpEnable).bind
  apply (appends_pod desc.logicOp).bind
  apply (appends_podVector desc.attachments).bind
  exact appends_pod desc.blendConstants

theorem ShaderStageDesc.appends (desc : ShaderStageDesc) : Appends desc.writeDesc := by
  apply (appends_pod desc.stage).bind
  apply (appends_podVector desc.spirv).bind
  apply (appends_string desc.entryPoint).bind
  exact appends_string desc.sourceKey

/-- The header comes first, and the rest of the description only follows it. -/
theorem written_writeDesc (vkHeaderVersionComplete : UInt32) (desc : GraphicsPipelineDesc) :
    ∃ rest, written (desc.writeDesc vkHeaderVersionComplete) =
      Pod.bytes (currentDescFileHeader vkHeaderVersionComplete) ++ rest := by
  apply written_pod_bind (currentDescFileHeader vkHeaderVersionComplete)
  apply (appends_pod (UInt32.ofNat desc.shaderStages.length)).bind
  apply (appends_forM desc.shaderStages ShaderStageDesc.appends).bind
  apply desc.vertexInput.appends.bind
  apply desc.inputAssembly.appends.bind
  apply desc.viewport.appends.bind
  apply desc.rasterization.appends.bind
  apply desc.multisample.appends.bind
  apply desc.depthStencil.appends.bind
  apply desc.colorBlend.appends.bind
  apply (appends_podVector desc.dynamicState.states).bind
  apply (appends_podVector desc.pushConstantRanges).bind
  exact appends_pod desc.subpass

/-! ## The header of a prefix -/

/-- Two layouts that begin alike, the first one cut off. -/
theorem take_append_drop (a h d : List UInt8) (n : ℕ) :
    (a ++ h).take n ++ (a ++ d).drop n = a ++ (h.take (n - a.length) ++ d.drop (n - a.length)) := by
  rw [List.take_append, List.drop_append]
  by_cases hn : a.length ≤ n
  · rw [List.take_of_length_le hn, List.drop_of_length_le hn, List.nil_append, List.append_assoc]
  · have hz : n - a.length = 0 := by omega
    rw [hz, List.take_zero, List.drop_zero, List.append_nil, List.nil_append, ← List.append_assoc, List.take_append_drop]

/-- Two layouts that end alike, the first one cut off. -/
theorem take_drop_append {v d : List UInt8} (hlen : v.length = d.length) (z : List UInt8) (n : ℕ) :
    (v ++ z).take n ++ (d ++ z).drop n = (v.take n ++ d.drop n) ++ z := by
  rw [List.take_append, List.drop_append, hlen]
  by_cases hn : d.length ≤ n
  · rw [List.drop_of_length_le hn, List.nil_append, List.append_nil, List.append_assoc, List.take_append_drop]
  · have hz : n - d.length = 0 := by omega
    rw [hz, List.take_zero, List.drop_zero, List.append_nil, List.append_assoc]

/-- What is read of the header: the bytes of its Vulkan version that are there. -/
theorem readHeader_take (vkHeaderVersionComplete : UInt32) (desc : GraphicsPipelineDesc) (n : ℕ) :
    ((readHeader {}).run ⟨(written (desc.writeDesc vkHeaderVersionComplete)).take n, false⟩).1 =
      currentDescFileHeader (UInt32.ofNat (vkHeaderVersionComplete.toNat % 256 ^ (n - 8))) := by
  obtain ⟨rest, hw⟩ := written_writeDesc vkHeaderVersionComplete desc
  rw [hw, readHeader, readPod_take]
  have hcut : (Pod.bytes (currentDescFileHeader vkHeaderVersionComplete)).take n ++
      (Pod.bytes ({} : DescFileHeader)).drop n =
      Pod.bytes descFileMagic ++ (Pod.bytes descFileFormatVersion ++
        (((Pod.bytes vkHeaderVersionComplete).take (n - 8) ++ (Pod.bytes (0 : UInt32)).drop (n - 8)) ++
          Pod.bytes zpcVersionEncoded)) := by
    have hn : n - 8 = n - (Pod.bytes descFileMagic).length - (Pod.bytes descFileFormatVersion).length := by
      rw [Nat.sub_sub]
      rfl
    rw [hn, ← take_drop_append (by simp), ← take_append_drop, ← take_append_drop]
    rfl
  have hversion : (Pod.ofBytes ((Pod.bytes vkHeaderVersionComplete).take (n - 8) ++
      (Pod.bytes (0 : UInt32)).drop (n - 8)) : UInt32) = UInt32.ofNat (vkHeaderVersionComplete.toNat % 256 ^ (n - 8)) :=
    congrArg UInt32.ofNat (ofBytes_take (by simpa using vkHeaderVersionComplete.toNat_lt) (n - 8))
  have hlen : ((Pod.bytes vkHeaderVersionComplete).take (n - 8) ++ (Pod.bytes (0 : UInt32)).drop (n - 8)).length =
      Pod.size UInt32 := by
    simp only [List.length_append, List.length_take, List.length_drop, Pod.length_bytes]
    omega
  have hfields : (Pod.ofBytes (Pod.bytes descFileMagic ++ (Pod.bytes descFileFormatVersion ++
        (((Pod.bytes vkHeaderVersionComplete).take (n - 8) ++ (Pod.bytes (0 : UInt32)).drop (n - 8)) ++
          Pod.bytes zpcVersionEncoded))) : UInt32 × UInt32 × UInt32 × UInt32) =
      (descFileMagic, descFileFormatVersion, UInt32.ofNat (vkHeaderVersionComplete.toNat % 256 ^ (n - 8)),
        zpcVersionEncoded) := by
    rw [ofBytes_append (Pod.length_bytes _), ofBytes_append (Pod.length_bytes _), ofBytes_append hlen, hversion]
    simp only [Pod.ofBytes_bytes]
  rw [hcut]
  exact congrArg (fun f : UInt32 × UInt32 × UInt32 × UInt32 => (⟨f.1, f.2.1, f.2.2.1, f.2.2.2⟩ : DescFileHeader)) hfields

/-! ## What is reported -/

/-- Reading throws, and no cache with these bytes under some key hands out what was read of them. -/
structure RejectsPrefix (hashDesc : GraphicsPipelineDesc → UInt64) (vkHeaderVersionComplete : UInt32)
    (desc old : GraphicsPipelineDesc) (n : ℕ) : Prop where
  reported : ∃ err, ((old.readDesc vkHeaderVersionComplete).run
    ⟨(written (desc.writeDesc vkHeaderVersionComplete)).take n, false⟩).1 = .error err
  notCached : ∀ (lib : JsonDocument.Library) (cache : DescriptorCache lib) (key : UInt64),
    cache.binary key = some ((written (desc.writeDesc vkHeaderVersionComplete)).take n) →
      cache.loadBinary hashDesc vkHeaderVersionComplete key old = none

theorem readDesc_run (vkHeaderVersionComplete : UInt32) (old : GraphicsPipelineDesc) (is : InStream) :
    (old.readDesc vkHeaderVersionComplete).run is =
      (match validateHeader vkHeaderVersionComplete ((readHeader {}).run is).1 with
        | some err => return .error ("GraphicsPipelineDesc binary: " ++ err)
        | none => do
          let desc ← old.readFields
          return .ok desc : StateM InStream (Except String GraphicsPipelineDesc)).run ((readHeader {}).run is).2 := by
  unfold GraphicsPipelineDesc.readDesc
  rw [StateT.run_bind]
  rfl

theorem run_ok {α : Type} (m : StateM InStream α) (is : InStream) :
    ((do let a ← m; return .ok a : StateM InStream (Except String α)).run is).1 = .ok (m.run is).1 := rfl

/-- Behind a header that is taken for that of this build, nothing is reported. -/
theorem readDesc_error_iff {vkHeaderVersionComplete : UInt32} {old : GraphicsPipelineDesc} {is : InStream} :
    (∃ err, ((old.readDesc vkHeaderVersionComplete).run is).1 = .error err) ↔
      ((readHeader {}).run is).1 ≠ currentDescFileHeader vkHeaderVersionComplete := by
  rw [readDesc_run, ne_eq, ← validateHeader_eq_none]
  cases validateHeader vkHeaderVersionComplete ((readHeader {}).run is).1 with
  | some err => exact iff_of_true ⟨_, rfl⟩ nofun
  | none =>
    refine iff_of_false ?_ fun h => h rfl
    rintro ⟨err, herr⟩
    cases (run_ok _ _).symm.trans herr

/-- A prefix is rejected exactly when it lacks a byte of the header's Vulkan version that is not zero. -/
theorem rejectsPrefix_iff (hashDesc : GraphicsPipelineDesc → UInt64) (vkHeaderVersionComplete : UInt32)
    (desc old : GraphicsPipelineDesc) (n : ℕ) :
    RejectsPrefix hashDesc vkHeaderVersionComplete desc old n ↔ 256 ^ (n - 8) ≤ vkHeaderVersionComplete.toNat := by
  have hreported : (∃ err, ((old.readDesc vkHeaderVersionComplete).run
      ⟨(written (desc.writeDesc vkHeaderVersionComplete)).take n, false⟩).1 = .error err) ↔
        256 ^ (n - 8) ≤ vkHeaderVersionComplete.toNat := by
    rw [readDesc_error_iff, readHeader_take, ← not_lt, not_iff_not]
    constructor
    · intro h
      have hlt : vkHeaderVersionComplete.toNat % 256 ^ (n - 8) < 2 ^ 32 :=
        (Nat.mod_le _ _).trans_lt vkHeaderVersionComplete.toNat_lt
      have hv : (UInt32.ofNat (vkHeaderVersionComplete.toNat % 256 ^ (n - 8))).toNat = vkHeaderVersionComplete.toNat :=
        congrArg (fun h : DescFileHeader => h.vkHeaderVersion.toNat) h
      rw [UInt32.toNat_ofNat_of_lt' hlt] at hv
      exact (Nat.mod_eq_iff_lt (Nat.pow_pos (by decide)).ne').mp hv
    · intro h
      rw [Nat.mod_eq_of_lt h, UInt32.ofNat_toNat]
  refine ⟨fun h => hreported.mp h.reported, fun h => ⟨hreported.mpr h, fun lib cache key hkey => ?_⟩⟩
  obtain ⟨err, herr⟩ := hreported.mpr h
  simp only [DescriptorCache.loadBinary, hkey, herr]

/-- A default description of which only the header is left is read without an error, and a cache hands it out. -/
theorem header_not_rejected : 16 < (written (GraphicsPipelineDesc.writeDesc 7 {})).length ∧
    ∀ hashDesc, ¬ RejectsPrefix hashDesc 7 {} {} 16 ∧ ∀ (lib : JsonDocument.Library) (cache : DescriptorCache lib),
      cache.binary (hashDesc {}) = some ((written (GraphicsPipelineDesc.writeDesc 7 {})).take 16) →
        cache.loadBinary hashDesc 7 (hashDesc {}) {} = some {} := by
  have hread : ((GraphicsPipelineDesc.readDesc 7 {}).run
      ⟨(written (GraphicsPipelineDesc.writeDesc 7 {})).take 16, false⟩).1 = .ok {} := by
    decide +kernel
  refine ⟨by decide +kernel, fun hashDesc => ⟨fun h => ?_, fun lib cache hkey => ?_⟩⟩
  · obtain ⟨err, herr⟩ := h.reported
    cases hread.symm.trans herr
  · simp only [DescriptorCache.loadBinary, hkey, hread, if_true]

end Zpc.VkPipeline
