import Zpc.JsonDocument
import Zpc.VkPipelineSerialization

/-!
# The JSON form of pipeline descriptions

`write_json` and `read_json` of `VkPipelineJson.cpp`, and the descriptor cache. The JSON library, the names of the
enumerators and the hash are parameters. The names of a stage are written as C strings and a 32-bit Boolean as a JSON one.
-/
namespace Zpc.VkPipeline
open BinaryFloat JsonDocument

/-- The enumerations that have names. -/
inductive EnumType
  | vertexInputRate | format | primitiveTopology | polygonMode | frontFace | sampleCountFlagBits | compareOp | stencilOp
  | logicOp | blendFactor | blendOp | dynamicState | shaderStageFlagBits
  deriving DecidableEq

/-! ## Writing -/

def cString (s : ByteString) : ByteString := s.takeWhile (· ≠ 0)

section Writing
variable (enumName : EnumType → VkEnum → ByteString)

def jwEnum (key : String) (type : EnumType) (v : VkEnum) : List (String × Json) :=
  let name := enumName type v
  (key, .int (Json.toInt32 v)) :: if name = [] then [] else [(key ++ "_name", .string name)]

def jwFlags (key : String) (v : VkFlags) : String × Json := (key, .uint v)

def jwStencilOp (key : String) (s : StencilOpState) : String × Json :=
  (key, .object (jwEnum enumName "failOp" .stencilOp s.failOp ++ jwEnum enumName "passOp" .stencilOp s.passOp ++
    jwEnum enumName "depthFailOp" .stencilOp s.depthFailOp ++ jwEnum enumName "compareOp" .compareOp s.compareOp ++
      [("compareMask", .uint s.compareMask), ("writeMask", .uint s.writeMask), ("reference", .uint s.reference)]))

def writeMetaObj (hdr : DescFileHeader) : String × Json :=
  ("_meta", .object [("magic", .string [0x5a, 0x53, 0x50, 0x44]), ("formatVersion", .uint hdr.formatVersion),
    ("vkHeaderVersion", .string (hexWord hdr.vkHeaderVersion)), ("zpcVersion", .string (hexWord hdr.zpcVersion))])

def writeBinding (b : VertexInputBindingDescription) : Json :=
  .object ([("binding", .uint b.binding), ("stride", .uint b.stride)] ++
    jwEnum enumName "inputRate" .vertexInputRate b.inputRate)

def writeAttribute (a : VertexInputAttributeDescription) : Json :=
  .object ([("location", .uint a.location), ("binding", .uint a.binding)] ++ jwEnum enumName "format" .format a.format ++
    [("offset", .uint a.offset)])

def writeVertexInput (desc : VertexInputStateDesc) : Json :=
  .object [("bindings", .array (desc.bindings.map (writeBinding enumName))),
    ("attributes", .array (desc.attributes.map (writeAttribute enumName)))]

def writeInputAssembly (desc : InputAssemblyStateDesc) : Json :=
  .object (jwEnum enumName "topology" .primitiveTopology desc.topology ++
    [("primitiveRestartEnable", .bool desc.primitiveRestartEnable)])

def writeViewport (desc : ViewportStateDesc) : Json :=
  .object [("viewportCount", .uint desc.viewportCount), ("scissorCount", .uint desc.scissorCount)]

def writeRasterization (desc : RasterizationStateDesc) : Json :=
  .object ([("depthClampEnable", .bool desc.depthClampEnable),
      ("rasterizerDiscardEnable", .bool desc.rasterizerDiscardEnable)] ++
    jwEnum enumName "polygonMode" .polygonMode desc.polygonMode ++ [jwFlags "cullMode" desc.cullMode] ++
    jwEnum enumName "frontFace" .frontFace desc.frontFace ++
    [("depthBiasEnable", .bool desc.depthBiasEnable), ("lineWidth", .ofFloat desc.lineWidth),
      ("depthBiasConstantFactor", .ofFloat desc.depthBiasConstantFactor),
      ("depthBiasClamp", .ofFloat desc.depthBiasClamp), ("depthBiasSlopeFactor", .ofFloat desc.depthBiasSlopeFactor)])

def writeMultisample (desc : MultisampleStateDesc) : Json :=
  .object ([("sampleShadingEnable", .bool desc.sampleShadingEnable)] ++
    jwEnum enumName "rasterizationSamples" .sampleCountFlagBits desc.rasterizationSamples ++
    [("minSampleShading", .ofFloat desc.minSampleShading),
      ("alphaToCoverageEnable", .bool desc.alphaToCoverageEnable), ("alphaToOneEnable", .bool desc.alphaToOneEnable)])

def writeDepthStencil (desc : DepthStencilStateDesc) : Json :=
  .object ([("depthTestEnable", .bool desc.depthTestEnable), ("depthWriteEnable", .bool desc.depthWriteEnable)] ++
    jwEnum enumName "depthCompareOp" .compareOp desc.depthCompareOp ++
    [("depthBoundsTestEnable", .bool desc.depthBoundsTestEnable), ("stencilTestEnable", .bool desc.stencilTestEnable),
      jwStencilOp enumName "front" desc.front, jwStencilOp enumName "back" desc.back,
      ("minDepthBounds", .ofFloat desc.minDepthBounds), ("maxDepthBounds", .ofFloat desc.maxDepthBounds)])

/-- `blendEnable` becomes a Boolean. -/
def writeAttachment (a : PipelineColorBlendAttachmentState) : Json :=
  .object ([("blendEnable", .bool (a.blendEnable ≠ 0))] ++
    jwEnum enumName "srcColorBlendFactor" .blendFactor a.srcColorBlendFactor ++
    jwEnum enumName "dstColorBlendFactor" .blendFactor a.dstColorBlendFactor ++
    jwEnum enumName "colorBlendOp" .blendOp a.colorBlendOp ++
    jwEnum enumName "srcAlphaBlendFactor" .blendFactor a.srcAlphaBlendFactor ++
    jwEnum enumName "dstAlphaBlendFactor" .blendFactor a.dstAlphaBlendFactor ++
    jwEnum enumName "alphaBlendOp" .blendOp a.alphaBlendOp ++ [("colorWriteMask", .uint a.colorWriteMask)])

def writeColorBlend (desc : ColorBlendStateDesc) : Json :=
  .object ([("logicOpEnable", .bool desc.logicOpEnable)] ++ jwEnum enumName "logicOp" .logicOp desc.logicOp ++
    [("attachments", .array (desc.attachments.map (writeAttachment enumName))),
      ("blendConstants", .array [.ofFloat desc.blendConstants.r, .ofFloat desc.blendConstants.g,
        .ofFloat desc.blendConstants.b, .ofFloat desc.blendConstants.a])])

def writeDynamicState (desc : DynamicStateDesc) : Json :=
  .object [("states", .array (desc.states.map fun s => .int (Json.toInt32 s))),
    ("states_names", .array (desc.states.map fun s => .string (enumName .dynamicState s)))]

/-- The names are handed over as C strings. -/
def writeShaderStage (desc : ShaderStageDesc) : Json :=
  .object (jwEnum enumName "stage" .shaderStageFlagBits desc.stage ++
    [("entryPoint", .string (cString desc.entryPoint))] ++
    (if desc.sourceKey = [] then [] else [("sourceKey", .string (cString desc.sourceKey))]) ++
    [("spirvWordCount", .uint (UInt32.ofNat desc.spirv.length)),
      ("spirv", .array (desc.spirv.map fun word => .string (hexWord word)))])

def writePushConstantRange (r : PushConstantRange) : Json :=
  .object [("stageFlags", .uint r.stageFlags), ("offset", .uint r.offset), ("size", .uint r.size)]

def writeDocument (vkHeaderVersionComplete : UInt32) (desc : GraphicsPipelineDesc) : Json :=
  .object [writeMetaObj (currentDescFileHeader vkHeaderVersionComplete),
    ("shaderStages", .array (desc.shaderStages.map (writeShaderStage enumName))),
    ("vertexInput", writeVertexInput enumName desc.vertexInput),
    ("inputAssembly", writeInputAssembly enumName desc.inputAssembly),
    ("viewport", writeViewport desc.viewport),
    ("rasterization", writeRasterization enumName desc.rasterization),
    ("multisample", writeMultisample enumName desc.multisample),
    ("depthStencil", writeDepthStencil enumName desc.depthStencil),
    ("colorBlend", writeColorBlend enumName desc.colorBlend),
    ("dynamicState", writeDynamicState enumName desc.dynamicState),
    ("pushConstantRanges", .array (desc.pushConstantRanges.map writePushConstantRange)),
    ("subpass", .uint desc.subpass)]

def GraphicsPipelineDesc.writeJson (lib : Library) (vkHeaderVersionComplete : UInt32) (desc : GraphicsPipelineDesc) :
    lib.Text :=
  lib.write (writeDocument enumName vkHeaderVersionComplete desc)

end Writing

/-! ## Reading -/

def jrBool (v : Json) (key : String) (fallback : Bool := false) : Bool :=
  ((v.find key).bind Json.getBool?).getD fallback

def jrU32 (v : Json) (key : String) (fallback : UInt32 := 0) : UInt32 :=
  ((v.find key).bind Json.getUint?).getD fallback

def jrI32 (v : Json) (key : String) (fallback : ℤ := 0) : ℤ := ((v.find key).bind Json.getInt?).getD fallback

def jrEnum (v : Json) (key : String) (fallback : ℤ := 0) : VkEnum := Json.ofInt32 (jrI32 v key fallback)

def jrFloat (v : Json) (key : String) (fallback : Single := 0) : Single :=
  ((v.find key).bind Json.getFloat?).getD fallback

def jrStr (v : Json) (key : String) (fallback : ByteString := []) : ByteString :=
  ((v.find key).bind Json.getString?).getD fallback

def jrArray (v : Json) (key : String) : List Json := ((v.find key).map Json.elements).getD []

def jrReadStencilOp (v : Json) : StencilOpState where
  failOp := jrEnum v "failOp"
  passOp := jrEnum v "passOp"
  depthFailOp := jrEnum v "depthFailOp"
  compareOp := jrEnum v "compareOp"
  compareMask := jrU32 v "compareMask"
  writeMask := jrU32 v "writeMask"
  reference := jrU32 v "reference"

def byteText (s : ByteString) : String := String.ofList (s.map fun c => Char.ofNat c.toNat)

def readMetaFromValue (m : Json) : Except String DescFileHeader := do
  let magic := jrStr m "magic"
  if magic ≠ [0x5a, 0x53, 0x50, 0x44] then throw ("JSON _meta: unexpected magic '" ++ byteText magic ++ "'")
  let vkStr := jrStr m "vkHeaderVersion"
  let vkHeaderVersion ← if vkStr ≠ [] then stoul vkStr else pure 0
  let zpcStr := jrStr m "zpcVersion"
  let zpcVersion ← if zpcStr ≠ [] then stoul zpcStr else pure 0
  return {
    formatVersion := jrU32 m "formatVersion", vkHeaderVersion := UInt32.ofNat vkHeaderVersion,
    zpcVersion := UInt32.ofNat zpcVersion}

def readMetaAndValidate (vkHeaderVersionComplete : UInt32) (doc : Json) (context : String) : Except String Unit :=
  match doc.find "_meta" with
  | some m => do
    let hdr ← readMetaFromValue m
    match validateHeader vkHeaderVersionComplete hdr with
    | some err => throw (context ++ " JSON: " ++ err)
    | none => return ()
  | none => return ()

def readBinding (b : Json) : VertexInputBindingDescription where
  binding := jrU32 b "binding"
  stride := jrU32 b "stride"
  inputRate := jrEnum b "inputRate"

def readAttribute (a : Json) : VertexInputAttributeDescription where
  location := jrU32 a "location"
  binding := jrU32 a "binding"
  format := jrEnum a "format"
  offset := jrU32 a "offset"

def readVertexInput (v : Json) : VertexInputStateDesc where
  bindings := (jrArray v "bindings").map readBinding
  attributes := (jrArray v "attributes").map readAttribute

def readInputAssembly (v : Json) : InputAssemblyStateDesc where
  topology := jrEnum v "topology"
  primitiveRestartEnable := jrBool v "primitiveRestartEnable"

def readViewport (v : Json) : ViewportStateDesc where
  viewportCount := jrU32 v "viewportCount" 1
  scissorCount := jrU32 v "scissorCount" 1

def readRasterization (v : Json) : RasterizationStateDesc where
  depthClampEnable := jrBool v "depthClampEnable"
  rasterizerDiscardEnable := jrBool v "rasterizerDiscardEnable"
  polygonMode := jrEnum v "polygonMode"
  cullMode := jrU32 v "cullMode"
  frontFace := jrEnum v "frontFace"
  depthBiasEnable := jrBool v "depthBiasEnable"
  lineWidth := jrFloat v "lineWidth" one
  depthBiasConstantFactor := jrFloat v "depthBiasConstantFactor"
  depthBiasClamp := jrFloat v "depthBiasClamp"
  depthBiasSlopeFactor := jrFloat v "depthBiasSlopeFactor"

def readMultisample (v : Json) : MultisampleStateDesc where
  sampleShadingEnable := jrBool v "sampleShadingEnable"
  rasterizationSamples := jrEnum v "rasterizationSamples" 1
  minSampleShading := jrFloat v "minSampleShading" one
  alphaToCoverageEnable := jrBool v "alphaToCoverageEnable"
  alphaToOneEnable := jrBool v "alphaToOneEnable"

/-- A stencil operation is read if its member is an object. -/
def readStencilMember (v : Json) (key : String) : StencilOpState :=
  match v.find key with
  | some s => if s.isObject then jrReadStencilOp s else {}
  | none => {}

def readDepthStencil (v : Json) : DepthStencilStateDesc where
  depthTestEnable := jrBool v "depthTestEnable" true
  depthWriteEnable := jrBool v "depthWriteEnable" true
  depthCompareOp := jrEnum v "depthCompareOp" 3
  depthBoundsTestEnable := jrBool v "depthBoundsTestEnable"
  stencilTestEnable := jrBool v "stencilTestEnable"
  front := readStencilMember v "front"
  back := readStencilMember v "back"
  minDepthBounds := jrFloat v "minDepthBounds"
  maxDepthBounds := jrFloat v "maxDepthBounds" one

def readAttachment (a : Json) : PipelineColorBlendAttachmentState where
  blendEnable := if jrBool a "blendEnable" then 1 else 0
  srcColorBlendFactor := jrEnum a "srcColorBlendFactor"
  dstColorBlendFactor := jrEnum a "dstColorBlendFactor"
  colorBlendOp := jrEnum a "colorBlendOp"
  srcAlphaBlendFactor := jrEnum a "srcAlphaBlendFactor"
  dstAlphaBlendFactor := jrEnum a "dstAlphaBlendFactor"
  alphaBlendOp := jrEnum a "alphaBlendOp"
  colorWriteMask := jrU32 a "colorWriteMask"

def readConstant (elems : List Json) (i : ℕ) : Single := (elems[i]?.bind Json.getFloat?).getD 0

def readColorBlend (v : Json) : ColorBlendStateDesc where
  logicOpEnable := jrBool v "logicOpEnable"
  logicOp := jrEnum v "logicOp"
  attachments := (jrArray v "attachments").map readAttachment
  blendConstants :=
    let arr := jrArray v "blendConstants"
    ⟨readConstant arr 0, readConstant arr 1, readConstant arr 2, readConstant arr 3⟩

/-- The elements are asserted to be numbers. -/
def readDynamicState (v : Json) : DynamicStateDesc where
  states := (jrArray v "states").map fun s => Json.ofInt32 (s.getInt?.getD 0)

def readWord (s : Json) : Except String UInt32 := do
  let word ← stoul (cString (s.getString?.getD []))
  return UInt32.ofNat word

def readShaderStage (v : Json) : Except String ShaderStageDesc := do
  let spirv ← ((jrArray v "spirv").filter fun s => s.getString?.isSome).mapM readWord
  return {
    stage := jrEnum v "stage", spirv, entryPoint := jrStr v "entryPoint" [0x6d, 0x61, 0x69, 0x6e],
    sourceKey := jrStr v "sourceKey"}

def readPushConstantRange (r : Json) : PushConstantRange where
  stageFlags := jrU32 r "stageFlags"
  offset := jrU32 r "offset"
  size := jrU32 r "size"

def readDocument (vkHeaderVersionComplete : UInt32) (doc : Json) : Except String GraphicsPipelineDesc := do
  readMetaAndValidate vkHeaderVersionComplete doc "GraphicsPipelineDesc"
  let shaderStages ← (jrArray doc "shaderStages").mapM readShaderStage
  return {
    shaderStages,
    vertexInput := ((doc.find "vertexInput").map readVertexInput).getD {}
    inputAssembly := ((doc.find "inputAssembly").map readInputAssembly).getD {}
    viewport := ((doc.find "viewport").map readViewport).getD {}
    rasterization := ((doc.find "rasterization").map readRasterization).getD {}
    multisample := ((doc.find "multisample").map readMultisample).getD {}
    depthStencil := ((doc.find "depthStencil").map readDepthStencil).getD {}
    colorBlend := ((doc.find "colorBlend").map readColorBlend).getD {}
    dynamicState := ((doc.find "dynamicState").map readDynamicState).getD {}
    pushConstantRanges := (jrArray doc "pushConstantRanges").map readPushConstantRange
    subpass := jrU32 doc "subpass"}

def GraphicsPipelineDesc.readJson (lib : Library) (vkHeaderVersionComplete : UInt32) (text : lib.Text) :
    Except String GraphicsPipelineDesc := do
  let doc ← lib.parse text
  readDocument vkHeaderVersionComplete doc

/-! ## The descriptor cache -/

/-- The files of a cache by their key. -/
structure DescriptorCache (lib : Library) where
  binary : UInt64 → Option (List UInt8)
  json : UInt64 → Option lib.Text

namespace DescriptorCache
variable {lib : Library} (enumName : EnumType → VkEnum → ByteString) (hashDesc : GraphicsPipelineDesc → UInt64)
  (vkHeaderVersionComplete : UInt32)

def empty : DescriptorCache lib := ⟨fun _ => none, fun _ => none⟩

def save (cache : DescriptorCache lib) (key : UInt64) (desc : GraphicsPipelineDesc) : DescriptorCache lib where
  binary := Function.update cache.binary key
    (some (BinaryStream.written (desc.writeDesc vkHeaderVersionComplete)))
  json := Function.update cache.json key (some (desc.writeJson enumName lib vkHeaderVersionComplete))

/-- The binary file first, with an exception taken for a miss. -/
def loadBinary (cache : DescriptorCache lib) (key : UInt64) (desc : GraphicsPipelineDesc) :
    Option GraphicsPipelineDesc :=
  match cache.binary key with
  | some bytes =>
    match ((desc.readDesc vkHeaderVersionComplete).run ⟨bytes, false⟩).1 with
    | .ok desc => if hashDesc desc = key then some desc else none
    | .error _ => none
  | none => none

def loadJson (cache : DescriptorCache lib) (key : UInt64) : Option GraphicsPipelineDesc :=
  match cache.json key with
  | some text =>
    match GraphicsPipelineDesc.readJson lib vkHeaderVersionComplete text with
    | .ok desc => if hashDesc desc = key then some desc else none
    | .error _ => none
  | none => none

/-- What is found under a key; `desc` is the description read into. -/
def load (cache : DescriptorCache lib) (key : UInt64) (desc : GraphicsPipelineDesc) : Option GraphicsPipelineDesc :=
  match cache.loadBinary hashDesc vkHeaderVersionComplete key desc with
  | some desc => some desc
  | none => cache.loadJson hashDesc vkHeaderVersionComplete key

def saveAll (entries : List (UInt64 × GraphicsPipelineDesc)) : DescriptorCache lib :=
  entries.foldl (fun cache entry => cache.save enumName vkHeaderVersionComplete entry.1 entry.2) empty

def jsonOnly (cache : DescriptorCache lib) : DescriptorCache lib := {cache with binary := fun _ => none}

end DescriptorCache

end Zpc.VkPipeline
