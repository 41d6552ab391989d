import Mathlib.Tactic.Common

/-!
# Graphics pipeline descriptions

The records of `VkPipeline.hpp` with their defaults, and those of the Vulkan headers that they hold. An enumeration, a
set of flags and a float are each their 32 bits, and a string is its bytes.
-/
namespace Zpc.VkPipeline
abbrev VkEnum := UInt32
abbrev VkFlags := UInt32
abbrev VkBool32 := UInt32
abbrev Single := UInt32
abbrev ByteString := List UInt8

structure VertexInputBindingDescription where
  binding : UInt32 := 0
  stride : UInt32 := 0
  inputRate : VkEnum := 0
  deriving DecidableEq, Inhabited

structure VertexInputAttributeDescription where
  location : UInt32 := 0
  binding : UInt32 := 0
  format : VkEnum := 0
  offset : UInt32 := 0
  deriving DecidableEq, Inhabited

structure StencilOpState where
  failOp : VkEnum := 0
  passOp : VkEnum := 0
  depthFailOp : VkEnum := 0
  compareOp : VkEnum := 0
  compareMask : UInt32 := 0
  writeMask : UInt32 := 0
  reference : UInt32 := 0
  deriving DecidableEq

structure PipelineColorBlendAttachmentState where
  blendEnable : VkBool32 := 0
  srcColorBlendFactor : VkEnum := 0
  dstColorBlendFactor : VkEnum := 0
  colorBlendOp : VkEnum := 0
  srcAlphaBlendFactor : VkEnum := 0
  dstAlphaBlendFactor : VkEnum := 0
  alphaBlendOp : VkEnum := 0
  colorWriteMask : VkFlags := 0
  deriving DecidableEq, Inhabited

structure PushConstantRange where
  stageFlags : VkFlags := 0
  offset : UInt32 := 0
  size : UInt32 := 0
  deriving DecidableEq, Inhabited

structure VertexInputStateDesc where
  bindings : List VertexInputBindingDescription := []
  attributes : List VertexInputAttributeDescription := []
  deriving DecidableEq

structure InputAssemblyStateDesc where
  topology : VkEnum := 3
  primitiveRestartEnable : Bool := false
  deriving DecidableEq

structure ViewportStateDesc where
  viewportCount : UInt32 := 1
  scissorCount : UInt32 := 1
  deriving DecidableEq

/-- The bits of `1.f`. -/
def one : Single := 0x3F800000

structure RasterizationStateDesc where
  depthClampEnable : Bool := false
  rasterizerDiscardEnable : Bool := false
  polygonMode : VkEnum := 0
  cullMode : VkFlags := 0
  frontFace : VkEnum := 0
  depthBiasEnable : Bool := false
  lineWidth : Single := one
  depthBiasConstantFactor : Single := 0
  depthBiasClamp : Single := 0
  depthBiasSlopeFactor : Single := 0
  deriving DecidableEq

structure MultisampleStateDesc where
  sampleShadingEnable : Bool := false
  rasterizationSamples : VkEnum := 1
  minSampleShading : Single := one
  alphaToCoverageEnable : Bool := false
  alphaToOneEnable : Bool := false
  deriving DecidableEq

/-- The default comparison is less or equal. -/
structure DepthStencilStateDesc where
  depthTestEnable : Bool := true
  depthWriteEnable : Bool := true
  depthCompareOp : VkEnum := 3
  depthBoundsTestEnable : Bool := false
  stencilTestEnable : Bool := false
  front : StencilOpState := {}
  back : StencilOpState := {}
  minDepthBounds : Single := 0
  maxDepthBounds : Single := one
  deriving DecidableEq

/-- The constants of `std::array<float, 4>`. -/
structure BlendConstants where
  r : Single := 0
  g : Single := 0
  b : Single := 0
  a : Single := 0
  deriving DecidableEq

/-- The default operation is a copy. -/
structure ColorBlendStateDesc where
  logicOpEnable : Bool := false
  logicOp : VkEnum := 3
  attachments : List PipelineColorBlendAttachmentState := []
  blendConstants : BlendConstants := {}
  deriving DecidableEq

structure DynamicStateDesc where
  states : List VkEnum := []
  deriving DecidableEq

/-- The default entry point is `main`. -/
structure ShaderStageDesc where
  stage : VkEnum := 0
  spirv : List UInt32 := []
  entryPoint : ByteString := [0x6d, 0x61, 0x69, 0x6e]
  sourceKey : ByteString := []
  deriving DecidableEq

instance : Inhabited ShaderStageDesc := ⟨{}⟩

structure GraphicsPipelineDesc where
  shaderStages : List ShaderStageDesc := []
  vertexInput : VertexInputStateDesc := {}
  inputAssembly : InputAssemblyStateDesc := {}
  viewport : ViewportStateDesc := {}
  rasterization : RasterizationStateDesc := {}
  multisample : MultisampleStateDesc := {}
  depthStencil : DepthStencilStateDesc := {}
  colorBlend : ColorBlendStateDesc := {}
  dynamicState : DynamicStateDesc := {}
  pushConstantRanges : List PushConstantRange := []
  subpass : UInt32 := 0
  deriving DecidableEq

/-! ## The header of a description file -/

structure DescFileHeader where
  magic : UInt32 := 0x4450535A
  formatVersion : UInt32 := 1
  vkHeaderVersion : UInt32 := 0
  zpcVersion : UInt32 := 0
  deriving DecidableEq

def descFileMagic : UInt32 := 0x4450535A
def descFileFormatVersion : UInt32 := 1
def zpcVersionEncoded : UInt32 := 0

/-- `vkHeaderVersionComplete` is the version of the Vulkan headers in use. -/
def currentDescFileHeader (vkHeaderVersionComplete : UInt32) : DescFileHeader where
  magic := descFileMagic
  formatVersion := descFileFormatVersion
  vkHeaderVersion := vkHeaderVersionComplete
  zpcVersion := zpcVersionEncoded

/-- The format `0x{:08X}`. -/
def hexUpper (n : UInt32) : String :=
  let digits := (Nat.toDigits 16 n.toNat).map Char.toUpper
  "0x" ++ String.ofList (List.replicate (8 - digits.length) '0' ++ digits)

/-- The reason why a header does not fit this build, if there is one. -/
def validateHeader (vkHeaderVersionComplete : UInt32) (hdr : DescFileHeader) : Option String :=
  if hdr.magic ≠ descFileMagic then
    some ("bad magic: expected " ++ hexUpper descFileMagic ++ ", got " ++ hexUpper hdr.magic)
  else if hdr.formatVersion ≠ descFileFormatVersion then
    some ("format version mismatch: expected " ++ toString descFileFormatVersion.toNat ++ ", got " ++
      toString hdr.formatVersion.toNat)
  else if hdr.vkHeaderVersion ≠ vkHeaderVersionComplete then
    some ("Vulkan header version mismatch: expected " ++ hexUpper vkHeaderVersionComplete ++ ", got " ++
      hexUpper hdr.vkHeaderVersion)
  else if hdr.zpcVersion ≠ zpcVersionEncoded then
    some ("zpc version mismatch: expected " ++ hexUpper zpcVersionEncoded ++ ", got " ++ hexUpper hdr.zpcVersion)
  else none

theorem validateHeader_eq_none {vkHeaderVersionComplete : UInt32} {hdr : DescFileHeader} :
    validateHeader vkHeaderVersionComplete hdr = none ↔ hdr = currentDescFileHeader vkHeaderVersionComplete := by
  obtain ⟨magic, formatVersion, vkHeaderVersion, zpcVersion⟩ := hdr
  unfold validateHeader currentDescFileHeader
  simp only [DescFileHeader.mk.injEq]
  constructor
  · intro h
    split at h
    · cases h
    split at h
    · cases h
    split at h
    · cases h
    split at h
    · cases h
    simp_all
  · rintro ⟨rfl, rfl, rfl, rfl⟩
    simp

end Zpc.VkPipeline

/-!
## The two ways to build a graphics pipeline

`PipelineBuilder` of `VkPipeline.cpp` builds from shader modules, and
`createGraphicsPipeline` of `VkContext.cpp` from the SPIR-V of a description. A handle
is taken for what it names, and what the device does with it is a parameter. The cache
of the driver, which changes no outcome, is left out.
-/
namespace Zpc.VkPipeline
variable {α : Type}

/-- `entries[key] = value` in a map, whose entries are in the order of their keys. -/
def assign (entries : List (UInt32 × α)) (key : UInt32) (value : α) : List (UInt32 × α) :=
  entries.filter (·.1 < key) ++ (key, value) :: entries.filter (key < ·.1)

def found (entries : List (UInt32 × α)) (key : UInt32) : Option α :=
  (entries.find? (·.1 = key)).map Prod.snd

structure PipelineShaderStageCreateInfo (Module : Type) where
  stage : VkEnum
  module : Module
  pName : ByteString
  deriving DecidableEq

/-- No dynamic state is the null pointer. -/
structure GraphicsPipelineCreateInfo (Module PipelineLayout RenderPass : Type) where
  stages : List (PipelineShaderStageCreateInfo Module)
  vertexInput : VertexInputStateDesc
  inputAssembly : InputAssemblyStateDesc
  viewport : ViewportStateDesc
  rasterization : RasterizationStateDesc
  multisample : MultisampleStateDesc
  depthStencil : DepthStencilStateDesc
  colorBlend : ColorBlendStateDesc
  dynamicState : Option DynamicStateDesc
  layout : PipelineLayout
  renderPass : RenderPass
  subpass : UInt32
  deriving DecidableEq

/-- The device, the reflection of SPIR-V and the names of the shader stages. An error is the text of an
exception. -/
structure Device where
  Module : Type
  SetLayout : Type
  PipelineLayout : Type
  RenderPass : Type
  Handle : Type
  createShaderModule : List UInt32 → VkEnum → Except String Module
  createDescriptorSetLayout : Except String SetLayout
  createPipelineLayout : List (Option SetLayout) → List PushConstantRange → Except String PipelineLayout
  createGraphicsPipelines : GraphicsPipelineCreateInfo Module PipelineLayout RenderPass → Option Handle
  reflectVkEnum : VkEnum → String

structure AttributeDescriptor where
  alignmentBits : UInt32
  size : UInt32
  format : VkEnum
  deriving DecidableEq

variable {device : Device}

structure ShaderModule (device : Device) where
  shaderModule : device.Module
  stageFlag : VkEnum
  entryPoint : ByteString := [0x6d, 0x61, 0x69, 0x6e]
  setLayouts : List (UInt32 × device.SetLayout) := []
  inputAttributes : List (UInt32 × AttributeDescriptor) := []

/-! ## The builder -/

def defaultPipelineDesc : GraphicsPipelineDesc where
  colorBlend := {attachments := [⟨1, 6, 7, 0, 1, 7, 0, 15⟩]}
  dynamicState := {states := [0, 1]}

structure PipelineBuilder (device : Device) where
  desc : GraphicsPipelineDesc := defaultPipelineDesc
  shaders : List (VkEnum × device.Module) := []
  shaderEntryPoints : List (VkEnum × ByteString) := []
  inputAttributes : List (UInt32 × AttributeDescriptor) := []
  descriptorSetLayouts : List (UInt32 × Option device.SetLayout) := []
  renderPass : Option device.RenderPass := none

namespace PipelineBuilder
def setDesc (b : PipelineBuilder device) (desc : GraphicsPipelineDesc) : PipelineBuilder device :=
  {b with desc}

def setRenderPass (b : PipelineBuilder device) (renderPass : Option device.RenderPass) : PipelineBuilder device :=
  {b with renderPass}

/-- The layouts so far are kept. -/
def setDescriptorSetLayouts (b : PipelineBuilder device) (layouts : List (UInt32 × device.SetLayout)) :
    PipelineBuilder device :=
  {b with
    descriptorSetLayouts :=
      layouts.foldl (fun entries layout => assign entries layout.1 (some layout.2)) b.descriptorSetLayouts}

/-- The flag of the vertex stage is 1. -/
def setShader (b : PipelineBuilder device) (module : ShaderModule device) : PipelineBuilder device :=
  let b := {b with
    shaders := assign b.shaders module.stageFlag module.shaderModule
    shaderEntryPoints := assign b.shaderEntryPoints module.stageFlag module.entryPoint}
  let b := b.setDescriptorSetLayouts module.setLayouts
  if module.stageFlag = 1 then {b with inputAttributes := module.inputAttributes} else b

/-- The number of a set is an `int` there, and -1 asks for the next one. -/
def addDescriptorSetLayout (b : PipelineBuilder device) (layout : Option device.SetLayout) (setNo : UInt32) :
    PipelineBuilder device :=
  if setNo = -1 then
    {b with
      descriptorSetLayouts :=
        assign b.descriptorSetLayouts (UInt32.ofNat b.descriptorSetLayouts.length) layout}
  else {b with descriptorSetLayouts := assign b.descriptorSetLayouts setNo layout}

/-- The descriptions of a vertex shader's attributes so far, and their offset and alignment. -/
structure Packing where
  attributes : List VertexInputAttributeDescription := []
  offset : UInt32 := 0
  alignment : UInt32 := 0

def Packing.push (p : Packing) (attrib : UInt32 × AttributeDescriptor) : Except String Packing :=
  if attrib.2.alignmentBits ≠ p.alignment ∧ p.alignment ≠ 0 then
    .error (s!"[pipeline building location {attrib.1} attribute alignment] expect {p.alignment}-bits alignment, " ++
      s!"encountered {attrib.2.alignmentBits}-bits\n")
  else .ok {
    attributes := p.attributes ++ [⟨attrib.1, 0, attrib.2.format, p.offset⟩]
    offset := p.offset + attrib.2.size
    alignment := attrib.2.alignmentBits}

/-- The vertex input of the description, or else that of the vertex shader in one binding. -/
def vertexInput (b : PipelineBuilder device) : Except String VertexInputStateDesc :=
  let desc := b.desc.vertexInput
  if (desc.bindings.length = 0 ∨ desc.attributes.length = 0) ∧ b.inputAttributes.length > 0 then do
    let p ← b.inputAttributes.foldlM Packing.push {}
    return {bindings := [⟨0, p.offset, 0⟩], attributes := p.attributes}
  else return desc

def missingShaders (b : PipelineBuilder device) : String :=
  let stagesPresent := ", ".intercalate (b.shaders.map fun shader => device.reflectVkEnum shader.1)
  "shaders are not fully prepared yet. Expected at least vertex and fragment " ++
    s!"shaders. Currently {b.shaders.length} shader(s) set: [" ++
    (if stagesPresent = "" then "none" else stagesPresent) ++ "]"

/-- A layout for each set up to the last, an empty one where none is given. -/
def setLayouts (b : PipelineBuilder device) : Except String (List (Option device.SetLayout)) :=
  let nSets : UInt32 := match b.descriptorSetLayouts.getLast? with
    | none => 0
    | some layout => layout.1 + 1
  let descrSetLayouts := b.descriptorSetLayouts.foldl (fun layouts layout => layouts.set layout.1.toNat layout.2)
    (List.replicate nSets.toNat none)
  descrSetLayouts.mapM fun layout => match layout with
    | some layout => return some layout
    | none => return some (← device.createDescriptorSetLayout)

/-- An entry point left empty is `main`. -/
def shaderStages (b : PipelineBuilder device) : List (PipelineShaderStageCreateInfo device.Module) :=
  b.shaders.map fun shader =>
    match found b.shaderEntryPoints shader.1 with
    | some entryPoint => ⟨shader.1, shader.2, if entryPoint = [] then [0x6d, 0x61, 0x69, 0x6e] else entryPoint⟩
    | none => ⟨shader.1, shader.2, [0x6d, 0x61, 0x69, 0x6e]⟩

def build (b : PipelineBuilder device) : Except String device.Handle :=
  if b.shaders.length < 2 then .error b.missingShaders
  else match b.renderPass with
  | none => .error "renderpass not yet specified."
  | some renderPass => do
    let descrSetLayouts ← b.setLayouts
    let layout ← device.createPipelineLayout descrSetLayouts b.desc.pushConstantRanges
    let vertexInput ← b.vertexInput
    let given := vertexInput.attributes.length > 0 ∧ vertexInput.bindings.length > 0
    match device.createGraphicsPipelines {
      stages := b.shaderStages
      vertexInput := if given then vertexInput else {}
      inputAssembly := b.desc.inputAssembly
      viewport := b.desc.viewport
      rasterization := if given then b.desc.rasterization else {b.desc.rasterization with cullMode := 0}
      multisample := b.desc.multisample
      depthStencil := if given then b.desc.depthStencil else {b.desc.depthStencil with depthWriteEnable := false}
      colorBlend := b.desc.colorBlend
      dynamicState := some b.desc.dynamicState
      layout, renderPass
      subpass := b.desc.subpass} with
    | some pipeline => return pipeline
    | none => .error "failed to create graphics pipeline"

/-- A builder given everything in turn. -/
def buildFrom (device : Device) (desc : GraphicsPipelineDesc) (renderPass : Option device.RenderPass)
    (shaderModules : List (ShaderModule device)) (setLayouts : List (Option device.SetLayout)) :
    Except String device.Handle :=
  let builder := (({} : PipelineBuilder device).setDesc desc).setRenderPass renderPass
  let builder := shaderModules.foldl setShader builder
  let builder := setLayouts.zipIdx.foldl (fun b layout => b.addDescriptorSetLayout layout.1 (UInt32.ofNat layout.2))
    builder
  builder.build

end PipelineBuilder

/-! ## From a description alone -/

def ShaderStageDesc.createInfo (device : Device) (stageDesc : ShaderStageDesc) :
    Except String (PipelineShaderStageCreateInfo device.Module) :=
  if stageDesc.spirv = [] then .error "graphics pipeline shader stage missing SPIR-V"
  else do
    let module ← device.createShaderModule stageDesc.spirv stageDesc.stage
    return ⟨stageDesc.stage, module, stageDesc.entryPoint⟩

/-- `VulkanContext::createGraphicsPipeline`. -/
def createGraphicsPipeline (device : Device) (desc : GraphicsPipelineDesc) (renderPass : Option device.RenderPass)
    (setLayouts : List (Option device.SetLayout)) : Except String device.Handle :=
  if desc.shaderStages = [] then .error "graphics pipeline creation requires shader stages"
  else match renderPass with
  | none => .error "graphics pipeline creation requires a render pass"
  | some renderPass => do
    let layout ← device.createPipelineLayout setLayouts desc.pushConstantRanges
    let stages ← desc.shaderStages.mapM (ShaderStageDesc.createInfo device)
    let given := desc.vertexInput.attributes ≠ [] ∧ desc.vertexInput.bindings ≠ []
    match device.createGraphicsPipelines {
      stages
      vertexInput := if given then desc.vertexInput else {}
      inputAssembly := desc.inputAssembly
      viewport := desc.viewport
      rasterization := desc.rasterization
      multisample := desc.multisample
      depthStencil := desc.depthStencil
      colorBlend := desc.colorBlend
      dynamicState := if desc.dynamicState.states = [] then none else some desc.dynamicState
      layout, renderPass
      subpass := desc.subpass} with
    | some pipeline => return pipeline
    | none => .error "failed to create graphics pipeline"

/-! ## What is not read -/

/-- The key of the source is left out of the hash. -/
def ShaderStageDesc.identity (desc : ShaderStageDesc) : ShaderStageDesc := {desc with sourceKey := []}

def GraphicsPipelineDesc.identity (desc : GraphicsPipelineDesc) : GraphicsPipelineDesc :=
  {desc with shaderStages := desc.shaderStages.map ShaderStageDesc.identity}

namespace PipelineBuilder
@[simp]
theorem setShader_setDesc (b : PipelineBuilder device) (desc : GraphicsPipelineDesc) (module : ShaderModule device) :
    (b.setDesc desc).setShader module = (b.setShader module).setDesc desc := by
  unfold setShader setDescriptorSetLayouts setDesc
  dsimp only
  split
  · rfl
  · rfl

@[simp]
theorem addDescriptorSetLayout_setDesc (b : PipelineBuilder device) (desc : GraphicsPipelineDesc)
    (layout : Option device.SetLayout) (setNo : UInt32) :
    (b.setDesc desc).addDescriptorSetLayout layout setNo = (b.addDescriptorSetLayout layout setNo).setDesc desc := by
  unfold addDescriptorSetLayout setDesc
  split
  · rfl
  · rfl

theorem foldl_setDesc {β : Type} {f : PipelineBuilder device → β → PipelineBuilder device}
    (hf : ∀ b desc a, f (b.setDesc desc) a = (f b a).setDesc desc) (desc : GraphicsPipelineDesc) (l : List β)
    (b : PipelineBuilder device) : l.foldl f (b.setDesc desc) = (l.foldl f b).setDesc desc := by
  induction l generalizing b with
  | nil => rfl
  | cons a l ih => rw [List.foldl_cons, List.foldl_cons, hf, ih]

theorem build_setDesc_identity (b : PipelineBuilder device) (desc : GraphicsPipelineDesc) :
    (b.setDesc desc.identity).build = (b.setDesc desc).build := rfl

theorem buildFrom_identity (desc : GraphicsPipelineDesc) (renderPass : Option device.RenderPass)
    (shaderModules : List (ShaderModule device)) (setLayouts : List (Option device.SetLayout)) :
    buildFrom device desc.identity renderPass shaderModules setLayouts =
      buildFrom device desc renderPass shaderModules setLayouts := by
  have hbuilder : ∀ desc, buildFrom device desc renderPass shaderModules setLayouts =
      (((setLayouts.zipIdx.foldl (fun b layout => b.addDescriptorSetLayout layout.1 (UInt32.ofNat layout.2))
        (shaderModules.foldl setShader (({} : PipelineBuilder device).setRenderPass renderPass)))).setDesc desc).build := by
    intro desc
    rw [← foldl_setDesc (fun b desc a => addDescriptorSetLayout_setDesc b desc _ _), ← foldl_setDesc setShader_setDesc]
    rfl
  rw [hbuilder, hbuilder, build_setDesc_identity]

theorem buildFrom_congr {desc desc' : GraphicsPipelineDesc} (h : desc.identity = desc'.identity)
    (renderPass : Option device.RenderPass) (shaderModules : List (ShaderModule device))
    (setLayouts : List (Option device.SetLayout)) :
    buildFrom device desc renderPass shaderModules setLayouts =
      buildFrom device desc' renderPass shaderModules setLayouts := by
  rw [← buildFrom_identity desc, h, buildFrom_identity]

end PipelineBuilder

theorem createInfo_identity (device : Device) :
    ShaderStageDesc.createInfo device ∘ ShaderStageDesc.identity = ShaderStageDesc.createInfo device := by
  funext desc
  rfl

theorem createGraphicsPipeline_identity (desc : GraphicsPipelineDesc) (renderPass : Option device.RenderPass)
    (setLayouts : List (Option device.SetLayout)) :
    createGraphicsPipeline device desc.identity renderPass setLayouts =
      createGraphicsPipeline device desc renderPass setLayouts := by
  unfold createGraphicsPipeline GraphicsPipelineDesc.identity
  simp only [List.map_eq_nil_iff, List.mapM_map, createInfo_identity]

theorem createGraphicsPipeline_congr {desc desc' : GraphicsPipelineDesc} (h : desc.identity = desc'.identity)
    (renderPass : Option device.RenderPass) (setLayouts : List (Option device.SetLayout)) :
    createGraphicsPipeline device desc renderPass setLayouts =
      createGraphicsPipeline device desc' renderPass setLayouts := by
  rw [← createGraphicsPipeline_identity desc, h, createGraphicsPipeline_identity]

end Zpc.VkPipeline
