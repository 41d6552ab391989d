import Zpc.BinaryStream
import Zpc.VkPipeline

/-!
# The binary form of pipeline descriptions

`write_desc` and `read_desc` of `VkPipelineSerialization.cpp`. The version of the Vulkan headers is a parameter. A
description whose counts fit their four bytes is read back from what was written of it, whatever stood in the
description read into and whatever follows in the stream.
-/
namespace Zpc.VkPipeline
open BinaryStream

/-! ## Layouts -/

instance : Pod VertexInputBindingDescription :=
  .ofFields (fun b => (b.binding, b.stride, b.inputRate)) (fun f => ⟨f.1, f.2.1, f.2.2⟩) fun _ => rfl

instance : Pod VertexInputAttributeDescription :=
  .ofFields (fun a => (a.location, a.binding, a.format, a.offset)) (fun f => ⟨f.1, f.2.1, f.2.2.1, f.2.2.2⟩) fun _ => rfl

instance : Pod StencilOpState :=
  .ofFields (fun s => (s.failOp, s.passOp, s.depthFailOp, s.compareOp, s.compareMask, s.writeMask, s.reference))
    (fun f => ⟨f.1, f.2.1, f.2.2.1, f.2.2.2.1, f.2.2.2.2.1, f.2.2.2.2.2.1, f.2.2.2.2.2.2⟩) fun _ => rfl

instance : Pod PipelineColorBlendAttachmentState :=
  .ofFields (fun s => (s.blendEnable, s.srcColorBlendFactor, s.dstColorBlendFactor, s.colorBlendOp,
      s.srcAlphaBlendFactor, s.dstAlphaBlendFactor, s.alphaBlendOp, s.colorWriteMask))
    (fun f => ⟨f.1, f.2.1, f.2.2.1, f.2.2.2.1, f.2.2.2.2.1, f.2.2.2.2.2.1, f.2.2.2.2.2.2.1, f.2.2.2.2.2.2.2⟩)
    fun _ => rfl

instance : Pod PushConstantRange :=
  .ofFields (fun r => (r.stageFlags, r.offset, r.size)) (fun f => ⟨f.1, f.2.1, f.2.2⟩) fun _ => rfl

instance : Pod BlendConstants :=
  .ofFields (fun c => (c.r, c.g, c.b, c.a)) (fun f => ⟨f.1, f.2.1, f.2.2.1, f.2.2.2⟩) fun _ => rfl

instance : Pod DescFileHeader :=
  .ofFields (fun h => (h.magic, h.formatVersion, h.vkHeaderVersion, h.zpcVersion))
    (fun f => ⟨f.1, f.2.1, f.2.2.1, f.2.2.2⟩) fun _ => rfl

/-! ## Writing -/

def writeHeader (hdr : DescFileHeader) : OutStream Unit := writePod hdr

def VertexInputStateDesc.writeDesc (desc : VertexInputStateDesc) : OutStream Unit := do
  writePodVector desc.bindings
  writePodVector desc.attributes

def InputAssemblyStateDesc.writeDesc (desc : InputAssemblyStateDesc) : OutStream Unit := do
  writePod desc.topology
  writePod desc.primitiveRestartEnable

def ViewportStateDesc.writeDesc (desc : ViewportStateDesc) : OutStream Unit := do
  writePod desc.viewportCount
  writePod desc.scissorCount

def RasterizationStateDesc.writeDesc (desc : RasterizationStateDesc) : OutStream Unit := do
  writePod desc.depthClampEnable
  writePod desc.rasterizerDiscardEnable
  writePod desc.polygonMode
  writePod desc.cullMode
  writePod desc.frontFace
  writePod desc.depthBiasEnable
  writePod desc.lineWidth
  writePod desc.depthBiasConstantFactor
  writePod desc.depthBiasClamp
  writePod desc.depthBiasSlopeFactor

def MultisampleStateDesc.writeDesc (desc : MultisampleStateDesc) : OutStream Unit := do
  writePod desc.sampleShadingEnable
  writePod desc.rasterizationSamples
  writePod desc.minSampleShading
  writePod desc.alphaToCoverageEnable
  writePod desc.alphaToOneEnable

def DepthStencilStateDesc.writeDesc (desc : DepthStencilStateDesc) : OutStream Unit := do
  writePod desc.depthTestEnable
  writePod desc.depthWriteEnable
  writePod desc.depthCompareOp
  writePod desc.depthBoundsTestEnable
  writePod desc.stencilTestEnable
  writePod desc.front
  writePod desc.back
  writePod desc.minDepthBounds
  writePod desc.maxDepthBounds

def ColorBlendStateDesc.writeDesc (desc : ColorBlendStateDesc) : OutStream Unit := do
  writePod desc.logicOpEnable
  writePod desc.logicOp
  writePodVector desc.attachments
  writePod desc.blendConstants

def DynamicStateDesc.writeDesc (desc : DynamicStateDesc) : OutStream Unit := writePodVector desc.states

def ShaderStageDesc.writeDesc (desc : ShaderStageDesc) : OutStream Unit := do
  writePod desc.stage
  writePodVector desc.spirv
  writeString desc.entryPoint
  writeString desc.sourceKey

def GraphicsPipelineDesc.writeDesc (vkHeaderVersionComplete : UInt32) (desc : GraphicsPipelineDesc) :
    OutStream Unit := do
  writeHeader (currentDescFileHeader vkHeaderVersionComplete)
  writePod (UInt32.ofNat desc.shaderStages.length)
  desc.shaderStages.forM ShaderStageDesc.writeDesc
  desc.vertexInput.writeDesc
  desc.inputAssembly.writeDesc
  desc.viewport.writeDesc
  desc.rasterization.writeDesc
  desc.multisample.writeDesc
  desc.depthStencil.writeDesc
  desc.colorBlend.writeDesc
  desc.dynamicState.writeDesc
  writePodVector desc.pushConstantRanges
  writePod desc.subpass

/-! ## Reading -/

def readHeader (hdr : DescFileHeader) : StateM InStream DescFileHeader := readPod hdr

def VertexInputStateDesc.readDesc (desc : VertexInputStateDesc) : StateM InStream VertexInputStateDesc := do
  let bindings ← readPodVector desc.bindings
  let attributes ← readPodVector desc.attributes
  return {bindings, attributes}

def InputAssemblyStateDesc.readDesc (desc : InputAssemblyStateDesc) : StateM InStream InputAssemblyStateDesc := do
  let topology ← readPod desc.topology
  let primitiveRestartEnable ← readPod desc.primitiveRestartEnable
  return {topology, primitiveRestartEnable}

def ViewportStateDesc.readDesc (desc : ViewportStateDesc) : StateM InStream ViewportStateDesc := do
  let viewportCount ← readPod desc.viewportCount
  let scissorCount ← readPod desc.scissorCount
  return {viewportCount, scissorCount}

def RasterizationStateDesc.readDesc (desc : RasterizationStateDesc) : StateM InStream RasterizationStateDesc := do
  let depthClampEnable ← readPod desc.depthClampEnable
  let rasterizerDiscardEnable ← readPod desc.rasterizerDiscardEnable
  let polygonMode ← readPod desc.polygonMode
  let cullMode ← readPod desc.cullMode
  let frontFace ← readPod desc.frontFace
  let depthBiasEnable ← readPod desc.depthBiasEnable
  let lineWidth ← readPod desc.lineWidth
  let depthBiasConstantFactor ← readPod desc.depthBiasConstantFactor
  let depthBiasClamp ← readPod desc.depthBiasClamp
  let depthBiasSlopeFactor ← readPod desc.depthBiasSlopeFactor
  return {
    depthClampEnable, rasterizerDiscardEnable, polygonMode, cullMode, frontFace, depthBiasEnable, lineWidth,
    depthBiasConstantFactor, depthBiasClamp, depthBiasSlopeFactor}

def MultisampleStateDesc.readDesc (desc : MultisampleStateDesc) : StateM InStream MultisampleStateDesc := do
  let sampleShadingEnable ← readPod desc.sampleShadingEnable
  let rasterizationSamples ← readPod desc.rasterizationSamples
  let minSampleShading ← readPod desc.minSampleShading
  let alphaToCoverageEnable ← readPod desc.alphaToCoverageEnable
  let alphaToOneEnable ← readPod desc.alphaToOneEnable
  return {sampleShadingEnable, rasterizationSamples, minSampleShading, alphaToCoverageEnable, alphaToOneEnable}

def DepthStencilStateDesc.readDesc (desc : DepthStencilStateDesc) : StateM InStream DepthStencilStateDesc := do
  let depthTestEnable ← readPod desc.depthTestEnable
  let depthWriteEnable ← readPod desc.depthWriteEnable
  let depthCompareOp ← readPod desc.depthCompareOp
  let depthBoundsTestEnable ← readPod desc.depthBoundsTestEnable
  let stencilTestEnable ← readPod desc.stencilTestEnable
  let front ← readPod desc.front
  let back ← readPod desc.back
  let minDepthBounds ← readPod desc.minDepthBounds
  let maxDepthBounds ← readPod desc.maxDepthBounds
  return {
    depthTestEnable, depthWriteEnable, depthCompareOp, depthBoundsTestEnable, stencilTestEnable, front, back,
    minDepthBounds, maxDepthBounds}

def ColorBlendStateDesc.readDesc (desc : ColorBlendStateDesc) : StateM InStream ColorBlendStateDesc := do
  let logicOpEnable ← readPod desc.logicOpEnable
  let logicOp ← readPod desc.logicOp
  let attachments ← readPodVector desc.attachments
  let blendConstants ← readPod desc.blendConstants
  return {logicOpEnable, logicOp, attachments, blendConstants}

def DynamicStateDesc.readDesc (desc : DynamicStateDesc) : StateM InStream DynamicStateDesc := do
  let states ← readPodVector desc.states
  return {states}

def ShaderStageDesc.readDesc (desc : ShaderStageDesc) : StateM InStream ShaderStageDesc := do
  let stage ← readPod desc.stage
  let spirv ← readPodVector desc.spirv
  let entryPoint ← readString desc.entryPoint
  let sourceKey ← readString desc.sourceKey
  return {stage, spirv, entryPoint, sourceKey}

/-- What follows the header. -/
def GraphicsPipelineDesc.readFields (desc : GraphicsPipelineDesc) : StateM InStream GraphicsPipelineDesc := do
  let numStages ← readPod (0 : UInt32)
  let shaderStages ← (resize desc.shaderStages numStages.toNat).mapM ShaderStageDesc.readDesc
  let vertexInput ← desc.vertexInput.readDesc
  let inputAssembly ← desc.inputAssembly.readDesc
  let viewport ← desc.viewport.readDesc
  let rasterization ← desc.rasterization.readDesc
  let multisample ← desc.multisample.readDesc
  let depthStencil ← desc.depthStencil.readDesc
  let colorBlend ← desc.colorBlend.readDesc
  let dynamicState ← desc.dynamicState.readDesc
  let pushConstantRanges ← readPodVector desc.pushConstantRanges
  let subpass ← readPod desc.subpass
  return {
    shaderStages, vertexInput, inputAssembly, viewport, rasterization, multisample, depthStencil, colorBlend,
    dynamicState, pushConstantRanges, subpass}

/-- An error is the text of the exception. -/
def GraphicsPipelineDesc.readDesc (vkHeaderVersionComplete : UInt32) (desc : GraphicsPipelineDesc) :
    StateM InStream (Except String GraphicsPipelineDesc) := do
  let hdr ← readHeader {}
  match validateHeader vkHeaderVersionComplete hdr with
  | some err => return .error ("GraphicsPipelineDesc binary: " ++ err)
  | none => do
    let desc ← desc.readFields
    return .ok desc

/-! ## Reading back -/

/-- Every count fits the four bytes in front of the elements. -/
structure ShaderStageDesc.Fits (desc : ShaderStageDesc) : Prop where
  spirv : desc.spirv.length < 2 ^ 32
  entryPoint : desc.entryPoint.length < 2 ^ 32
  sourceKey : desc.sourceKey.length < 2 ^ 32

structure GraphicsPipelineDesc.Fits (desc : GraphicsPipelineDesc) : Prop where
  shaderStages : desc.shaderStages.length < 2 ^ 32
  stage : ∀ stage ∈ desc.shaderStages, stage.Fits
  bindings : desc.vertexInput.bindings.length < 2 ^ 32
  attributes : desc.vertexInput.attributes.length < 2 ^ 32
  attachments : desc.colorBlend.attachments.length < 2 ^ 32
  states : desc.dynamicState.states.length < 2 ^ 32
  pushConstantRanges : desc.pushConstantRanges.length < 2 ^ 32

theorem VertexInputStateDesc.inverts {desc : VertexInputStateDesc} (old : VertexInputStateDesc)
    (hb : desc.bindings.length < 2 ^ 32) (ha : desc.attributes.length < 2 ^ 32) :
    Inverts desc.writeDesc old.readDesc desc := by
  apply (inverts_podVector _ hb).bind
  exact (inverts_podVector _ ha).last

theorem InputAssemblyStateDesc.inverts (desc old : InputAssemblyStateDesc) :
    Inverts desc.writeDesc old.readDesc desc := by
  apply (inverts_pod _ desc.topology).bind
  exact (inverts_pod _ desc.primitiveRestartEnable).last

theorem ViewportStateDesc.inverts (desc old : ViewportStateDesc) : Inverts desc.writeDesc old.readDesc desc := by
  apply (inverts_pod _ desc.viewportCount).bind
  exact (inverts_pod _ desc.scissorCount).last

theorem RasterizationStateDesc.inverts (desc old : RasterizationStateDesc) :
    Inverts desc.writeDesc old.readDesc desc := by
  apply (inverts_pod _ desc.depthClampEnable).bind
  apply (inverts_pod _ desc.rasterizerDiscardEnable).bind
  apply (inverts_pod _ desc.polygonMode).bind
  apply (inverts_pod _ desc.cullMode).bind
  apply (inverts_pod _ desc.frontFace).bind
  apply (inverts_pod _ desc.depthBiasEnable).bind
  apply (inverts_pod _ desc.lineWidth).bind
  apply (inverts_pod _ desc.depthBiasConstantFactor).bind
  apply (inverts_pod _ desc.depthBiasClamp).bind
  exact (inverts_pod _ desc.depthBiasSlopeFactor).last

theorem MultisampleStateDesc.inverts (desc old : MultisampleStateDesc) :
    Inverts desc.writeDesc old.readDesc desc := by
  apply (inverts_pod _ desc.sampleShadingEnable).bind
  apply (inverts_pod _ desc.rasterizationSamples).bind
  apply (inverts_pod _ desc.minSampleShading).bind
  apply (inverts_pod _ desc.alphaToCoverageEnable).bind
  exact (inverts_pod _ desc.alphaToOneEnable).last

theorem DepthStencilStateDesc.inverts (desc old : DepthStencilStateDesc) :
    Inverts desc.writeDesc old.readDesc desc := by
  apply (inverts_pod _ desc.depthTestEnable).bind
  apply (inverts_pod _ desc.depthWriteEnable).bind
  apply (inverts_pod _ desc.depthCompareOp).bind
  apply (inverts_pod _ desc.depthBoundsTestEnable).bind
  apply (inverts_pod _ desc.stencilTestEnable).bind
  apply (inverts_pod _ desc.front).bind
  apply (inverts_pod _ desc.back).bind
  apply (inverts_pod _ desc.minDepthBounds).bind
  exact (inverts_pod _ desc.maxDepthBounds).last

theorem ColorBlendStateDesc.inverts {desc : ColorBlendStateDesc} (old : ColorBlendStateDesc)
    (h : desc.attachments.length < 2 ^ 32) : Inverts desc.writeDesc old.readDesc desc := by
  apply (inverts_pod _ desc.logicOpEnable).bind
  apply (inverts_pod _ desc.logicOp).bind
  apply (inverts_podVector _ h).bind
  exact (inverts_pod _ desc.blendConstants).last

theorem DynamicStateDesc.inverts {desc : DynamicStateDesc} (old : DynamicStateDesc)
    (h : desc.states.length < 2 ^ 32) : Inverts desc.writeDesc old.readDesc desc :=
  (inverts_podVector _ h).last

theorem ShaderStageDesc.inverts {desc : ShaderStageDesc} (old : ShaderStageDesc) (h : desc.Fits) :
    Inverts desc.writeDesc old.readDesc desc := by
  apply (inverts_pod _ desc.stage).bind
  apply (inverts_podVector _ h.spirv).bind
  apply (inverts_string _ h.entryPoint).bind
  exact (inverts_string _ h.sourceKey).last

theorem inverts_header (hdr old : DescFileHeader) : Inverts (writeHeader hdr) (readHeader old) hdr :=
  inverts_pod old hdr

theorem GraphicsPipelineDesc.inverts (vkHeaderVersionComplete : UInt32) {desc : GraphicsPipelineDesc}
    (old : GraphicsPipelineDesc) (h : desc.Fits) :
    Inverts (desc.writeDesc vkHeaderVersionComplete) (old.readDesc vkHeaderVersionComplete) (.ok desc) := by
  apply (inverts_header (currentDescFileHeader vkHeaderVersionComplete) {}).bind
  rw [validateHeader_eq_none.mpr rfl]
  apply Inverts.last
  apply (inverts_pod 0 (UInt32.ofNat desc.shaderStages.length)).bind
  rw [toNat_count h.shaderStages]
  apply (inverts_forM (fun stage hs old => ShaderStageDesc.inverts old (h.stage stage hs)) (length_resize _ _)).bind
  apply (VertexInputStateDesc.inverts _ h.bindings h.attributes).bind
  apply (desc.inputAssembly.inverts _).bind
  apply (desc.viewport.inverts _).bind
  apply (desc.rasterization.inverts _).bind
  apply (desc.multisample.inverts _).bind
  apply (desc.depthStencil.inverts _).bind
  apply (ColorBlendStateDesc.inverts _ h.attachments).bind
  apply (DynamicStateDesc.inverts _ h.states).bind
  apply (inverts_podVector _ h.pushConstantRanges).bind
  exact (inverts_pod _ desc.subpass).last

/-- The description is read back, and the stream is left at what follows it. -/
theorem readDesc_writeDesc (vkHeaderVersionComplete : UInt32) (desc old : GraphicsPipelineDesc) (h : desc.Fits)
    (rest : List UInt8) :
    (old.readDesc vkHeaderVersionComplete).run ⟨written (desc.writeDesc vkHeaderVersionComplete) ++ rest, false⟩ =
      (.ok desc, ⟨rest, false⟩) :=
  (GraphicsPipelineDesc.inverts vkHeaderVersionComplete old h).run rest

/-- A textured triangle with blending. -/
def textured : GraphicsPipelineDesc where
  shaderStages := [{stage := 1, spirv := [0x07230203], sourceKey := [0x61, 0]}, {stage := 16}]
  vertexInput := {bindings := [⟨0, 16, 0⟩], attributes := [⟨0, 0, 106, 0⟩]}
  colorBlend := {attachments := [{blendEnable := 1, colorWriteMask := 15}]}
  dynamicState := {states := [0, 1]}
  pushConstantRanges := [⟨16, 0, 64⟩]

theorem textured_fits : textured.Fits := by
  constructor <;> try decide
  intro stage hs
  simp only [textured, List.mem_cons, List.not_mem_nil, or_false] at hs
  cases hs with
  | inl hs => subst hs; constructor <;> decide
  | inr hs => subst hs; constructor <;> decide

theorem readDesc_writeDesc_textured :
    (GraphicsPipelineDesc.readDesc 7 {}).run ⟨written (textured.writeDesc 7) ++ [0xff], false⟩ =
      (.ok textured, ⟨[0xff], false⟩) :=
  readDesc_writeDesc 7 textured {} textured_fits [0xff]

end Zpc.VkPipeline
