import Mathlib.Data.List.Nodup
import Mathlib.Data.List.TakeWhile
import Zpc.VkPipelineJson

/-!
# Reading back the JSON form of pipeline descriptions

What a description is read back as: the names of its stages end at the first null byte and a 32-bit Boolean is 0 or 1.
Exactly the descriptions without such bytes and with such Booleans come back as they were, also from a cache.
-/
namespace Zpc.VkPipeline
open BinaryFloat JsonDocument

/-! ## Members -/

section Members
variable {enumName : EnumType → VkEnum → ByteString} {v : Json} {key : String}

@[simp] theorem find_cons_self (key : String) (v : Json) (members : List (String × Json)) :
    (Json.object ((key, v) :: members)).find key = some v := by
  simp [Json.find]

@[simp] theorem find_cons_ne {key k : String} (v : Json) (members : List (String × Json)) (hk : key ≠ k) :
    (Json.object ((k, v) :: members)).find key = (Json.object members).find key := by
  have hb : (key == k) = false := by simpa using hk
  simp [Json.find, List.lookup_cons, hb]

@[simp] theorem find_jwEnum_self (k : String) (t : EnumType) (v : VkEnum) (rest : List (String × Json)) :
    (Json.object (jwEnum enumName k t v ++ rest)).find k = some (.int (Json.toInt32 v)) :=
  find_cons_self ..

@[simp] theorem find_jwEnum_last (k : String) (t : EnumType) (v : VkEnum) :
    (Json.object (jwEnum enumName k t v)).find k = some (.int (Json.toInt32 v)) :=
  find_cons_self ..

@[simp] theorem find_jwEnum_ne {key k : String} (t : EnumType) (v : VkEnum) (rest : List (String × Json)) (hk : key ≠ k)
    (hname : key ≠ k ++ "_name") :
    (Json.object (jwEnum enumName k t v ++ rest)).find key = (Json.object rest).find key := by
  unfold jwEnum
  simp only
  rw [List.cons_append, find_cons_ne _ _ hk]
  split
  · rfl
  · rw [List.cons_append, find_cons_ne _ _ hname, List.nil_append]

theorem jrBool_of_find {b fallback : Bool} (h : v.find key = some (.bool b)) : jrBool v key fallback = b := by
  unfold jrBool
  rw [h]
  rfl

theorem jrU32_of_find {n fallback : UInt32} (h : v.find key = some (.uint n)) : jrU32 v key fallback = n := by
  unfold jrU32
  rw [h, Option.bind_some, Json.getUint?_uint, Option.getD_some]

theorem jrI32_of_find {n : VkEnum} {fallback : ℤ} (h : v.find key = some (.int (Json.toInt32 n))) :
    jrI32 v key fallback = Json.toInt32 n := by
  unfold jrI32
  rw [h, Option.bind_some, Json.getInt?_toInt32, Option.getD_some]

theorem jrEnum_of_find {n : VkEnum} {fallback : ℤ} (h : v.find key = some (.int (Json.toInt32 n))) :
    jrEnum v key fallback = n :=
  (congrArg Json.ofInt32 (jrI32_of_find h)).trans (Json.ofInt32_toInt32 n)

theorem jrFloat_of_find {f fallback : Single} (hf : IsFinite f) (h : v.find key = some (.ofFloat f)) :
    jrFloat v key fallback = f := by
  unfold jrFloat
  rw [h, Option.bind_some, Json.getFloat?_ofFloat hf, Option.getD_some]

theorem jrStr_of_find {s fallback : ByteString} (h : v.find key = some (.string s)) : jrStr v key fallback = s := by
  unfold jrStr
  rw [h]
  rfl

theorem jrArray_of_find {elems : List Json} (h : v.find key = some (.array elems)) : jrArray v key = elems := by
  unfold jrArray
  rw [h]
  rfl

theorem map_read {α : Type} {write : α → Json} {read : Json → α} (h : ∀ a, read (write a) = a) (l : List α) :
    (l.map write).map read = l := by
  rw [List.map_map]
  exact List.map_id'' h l

theorem mapM_read {α : Type} {write : α → Json} {read : Json → Except String α} {norm : α → α}
    (h : ∀ a, read (write a) = .ok (norm a)) (l : List α) : (l.map write).mapM read = .ok (l.map norm) := by
  induction l with
  | nil => rfl
  | cons a l ih =>
    rw [List.map_cons, List.mapM_cons, h, ih]
    rfl

end Members

/-! ## Reading back -/

section RoundTrip
variable {enumName : EnumType → VkEnum → ByteString}

theorem readBinding_writeBinding (b : VertexInputBindingDescription) : readBinding (writeBinding enumName b) = b := by
  cases b
  simp only [readBinding, VertexInputBindingDescription.mk.injEq]
  refine ⟨jrU32_of_find ?_, jrU32_of_find ?_, jrEnum_of_find ?_⟩ <;>
    simp (disch := decide) [writeBinding]

theorem readAttribute_writeAttribute (a : VertexInputAttributeDescription) :
    readAttribute (writeAttribute enumName a) = a := by
  cases a
  simp only [readAttribute, VertexInputAttributeDescription.mk.injEq]
  refine ⟨jrU32_of_find ?_, jrU32_of_find ?_, jrEnum_of_find ?_, jrU32_of_find ?_⟩ <;>
    simp (disch := decide) [writeAttribute]

theorem readVertexInput_writeVertexInput (desc : VertexInputStateDesc) :
    readVertexInput (writeVertexInput enumName desc) = desc := by
  have hbindings : jrArray (writeVertexInput enumName desc) "bindings" = desc.bindings.map (writeBinding enumName) :=
    jrArray_of_find (by simp (disch := decide) [writeVertexInput])
  have hattributes : jrArray (writeVertexInput enumName desc) "attributes" =
      desc.attributes.map (writeAttribute enumName) :=
    jrArray_of_find (by simp (disch := decide) [writeVertexInput])
  rw [readVertexInput, hbindings, hattributes, map_read readBinding_writeBinding, map_read readAttribute_writeAttribute]

theorem readInputAssembly_writeInputAssembly (desc : InputAssemblyStateDesc) :
    readInputAssembly (writeInputAssembly enumName desc) = desc := by
  cases desc
  simp only [readInputAssembly, InputAssemblyStateDesc.mk.injEq]
  refine ⟨jrEnum_of_find ?_, jrBool_of_find ?_⟩ <;>
    simp (disch := decide) [writeInputAssembly]

theorem readViewport_writeViewport (desc : ViewportStateDesc) : readViewport (writeViewport desc) = desc := by
  cases desc
  simp only [readViewport, ViewportStateDesc.mk.injEq]
  refine ⟨jrU32_of_find ?_, jrU32_of_find ?_⟩ <;>
    simp (disch := decide) [writeViewport]

theorem readPushConstantRange_writePushConstantRange (r : PushConstantRange) :
    readPushConstantRange (writePushConstantRange r) = r := by
  cases r
  simp only [readPushConstantRange, PushConstantRange.mk.injEq]
  refine ⟨jrU32_of_find ?_, jrU32_of_find ?_, jrU32_of_find ?_⟩ <;>
    simp (disch := decide) [writePushConstantRange]

def PipelineColorBlendAttachmentState.throughJson (a : PipelineColorBlendAttachmentState) :
    PipelineColorBlendAttachmentState :=
  {a with blendEnable := if a.blendEnable = 0 then 0 else 1}

theorem readAttachment_writeAttachment (a : PipelineColorBlendAttachmentState) :
    readAttachment (writeAttachment enumName a) = a.throughJson := by
  obtain ⟨blendEnable, _⟩ := a
  simp only [readAttachment, PipelineColorBlendAttachmentState.throughJson, PipelineColorBlendAttachmentState.mk.injEq]
  refine ⟨?_, jrEnum_of_find ?_, jrEnum_of_find ?_, jrEnum_of_find ?_, jrEnum_of_find ?_, jrEnum_of_find ?_,
    jrEnum_of_find ?_, jrU32_of_find ?_⟩
  · rw [jrBool_of_find (b := decide (blendEnable ≠ 0)) (by simp (disch := decide) [writeAttachment])]
    by_cases h0 : blendEnable = 0 <;> simp [h0]
  all_goals simp (disch := decide) [writeAttachment]

theorem readDynamicState_writeDynamicState (desc : DynamicStateDesc) :
    readDynamicState (writeDynamicState enumName desc) = desc := by
  have hstates : jrArray (writeDynamicState enumName desc) "states" =
      desc.states.map fun s => Json.int (Json.toInt32 s) :=
    jrArray_of_find (by simp (disch := decide) [writeDynamicState])
  have hread : ∀ s : VkEnum, Json.ofInt32 ((Json.int (Json.toInt32 s)).getInt?.getD 0) = s := by
    intro s
    rw [Json.getInt?_toInt32, Option.getD_some, Json.ofInt32_toInt32]
  rw [readDynamicState, hstates, map_read hread]

/-! ### Records with floats -/

structure RasterizationStateDesc.FloatsFinite (desc : RasterizationStateDesc) : Prop where
  lineWidth : IsFinite desc.lineWidth
  depthBiasConstantFactor : IsFinite desc.depthBiasConstantFactor
  depthBiasClamp : IsFinite desc.depthBiasClamp
  depthBiasSlopeFactor : IsFinite desc.depthBiasSlopeFactor

structure DepthStencilStateDesc.FloatsFinite (desc : DepthStencilStateDesc) : Prop where
  minDepthBounds : IsFinite desc.minDepthBounds
  maxDepthBounds : IsFinite desc.maxDepthBounds

structure BlendConstants.FloatsFinite (c : BlendConstants) : Prop where
  r : IsFinite c.r
  g : IsFinite c.g
  b : IsFinite c.b
  a : IsFinite c.a

structure GraphicsPipelineDesc.FloatsFinite (desc : GraphicsPipelineDesc) : Prop where
  rasterization : desc.rasterization.FloatsFinite
  minSampleShading : IsFinite desc.multisample.minSampleShading
  depthStencil : desc.depthStencil.FloatsFinite
  blendConstants : desc.colorBlend.blendConstants.FloatsFinite

theorem readRasterization_writeRasterization {desc : RasterizationStateDesc} (h : desc.FloatsFinite) :
    readRasterization (writeRasterization enumName desc) = desc := by
  cases desc
  simp only [readRasterization, RasterizationStateDesc.mk.injEq]
  refine ⟨jrBool_of_find ?_, jrBool_of_find ?_, jrEnum_of_find ?_, jrU32_of_find ?_, jrEnum_of_find ?_,
    jrBool_of_find ?_, jrFloat_of_find h.lineWidth ?_, jrFloat_of_find h.depthBiasConstantFactor ?_,
    jrFloat_of_find h.depthBiasClamp ?_, jrFloat_of_find h.depthBiasSlopeFactor ?_⟩ <;>
    simp (disch := decide) [writeRasterization, jwFlags]

theorem readMultisample_writeMultisample {desc : MultisampleStateDesc} (h : IsFinite desc.minSampleShading) :
    readMultisample (writeMultisample enumName desc) = desc := by
  cases desc
  simp only [readMultisample, MultisampleStateDesc.mk.injEq]
  refine ⟨jrBool_of_find ?_, jrEnum_of_find ?_, jrFloat_of_find h ?_, jrBool_of_find ?_, jrBool_of_find ?_⟩ <;>
    simp (disch := decide) [writeMultisample]

theorem jrReadStencilOp_jwStencilOp (key : String) (s : StencilOpState) :
    jrReadStencilOp (jwStencilOp enumName key s).2 = s := by
  cases s
  simp only [jrReadStencilOp, StencilOpState.mk.injEq]
  refine ⟨jrEnum_of_find ?_, jrEnum_of_find ?_, jrEnum_of_find ?_, jrEnum_of_find ?_, jrU32_of_find ?_,
    jrU32_of_find ?_, jrU32_of_find ?_⟩ <;>
    simp (disch := decide) [jwStencilOp]

variable (enumName) in
theorem readStencilMember_of_find {v : Json} {key : String} {s : StencilOpState}
    (h : v.find key = some (jwStencilOp enumName key s).2) : readStencilMember v key = s := by
  unfold readStencilMember
  rw [h]
  exact jrReadStencilOp_jwStencilOp key s

theorem jwStencilOp_eq (key : String) (s : StencilOpState) :
    jwStencilOp enumName key s = (key, (jwStencilOp enumName key s).2) := rfl

theorem readDepthStencil_writeDepthStencil {desc : DepthStencilStateDesc} (h : desc.FloatsFinite) :
    readDepthStencil (writeDepthStencil enumName desc) = desc := by
  cases desc
  rw [writeDepthStencil, jwStencilOp_eq "front", jwStencilOp_eq "back", readDepthStencil, DepthStencilStateDesc.mk.injEq]
  refine ⟨jrBool_of_find ?_, jrBool_of_find ?_, jrEnum_of_find ?_, jrBool_of_find ?_, jrBool_of_find ?_,
    readStencilMember_of_find enumName ?_, readStencilMember_of_find enumName ?_, jrFloat_of_find h.minDepthBounds ?_,
    jrFloat_of_find h.maxDepthBounds ?_⟩ <;>
    simp (disch := decide)

theorem readConstant_ofFloat {elems : List Json} {i : ℕ} {f : Single} (hf : IsFinite f)
    (h : elems[i]? = some (.ofFloat f)) : readConstant elems i = f := by
  unfold readConstant
  rw [h, Option.bind_some, Json.getFloat?_ofFloat hf, Option.getD_some]

def ColorBlendStateDesc.throughJson (desc : ColorBlendStateDesc) : ColorBlendStateDesc :=
  {desc with attachments := desc.attachments.map PipelineColorBlendAttachmentState.throughJson}

theorem readColorBlend_writeColorBlend {desc : ColorBlendStateDesc} (h : desc.blendConstants.FloatsFinite) :
    readColorBlend (writeColorBlend enumName desc) = desc.throughJson := by
  have henable : jrBool (writeColorBlend enumName desc) "logicOpEnable" = desc.logicOpEnable :=
    jrBool_of_find (by simp (disch := decide) [writeColorBlend])
  have hop : jrEnum (writeColorBlend enumName desc) "logicOp" = desc.logicOp :=
    jrEnum_of_find (by simp (disch := decide) [writeColorBlend])
  have hattachments : jrArray (writeColorBlend enumName desc) "attachments" =
      desc.attachments.map (writeAttachment enumName) :=
    jrArray_of_find (by simp (disch := decide) [writeColorBlend])
  have hconstants : jrArray (writeColorBlend enumName desc) "blendConstants" = [.ofFloat desc.blendConstants.r,
      .ofFloat desc.blendConstants.g, .ofFloat desc.blendConstants.b, .ofFloat desc.blendConstants.a] :=
    jrArray_of_find (by simp (disch := decide) [writeColorBlend])
  have hread : (desc.attachments.map (writeAttachment enumName)).map readAttachment =
      desc.attachments.map PipelineColorBlendAttachmentState.throughJson := by
    rw [List.map_map]
    exact List.map_congr_left fun a _ => readAttachment_writeAttachment a
  rw [readColorBlend, henable, hop, hattachments, hconstants, hread]
  simp only
  rw [readConstant_ofFloat h.r rfl, readConstant_ofFloat h.g rfl, readConstant_ofFloat h.b rfl,
    readConstant_ofFloat h.a rfl]
  rfl

/-! ### The document -/

def ShaderStageDesc.throughJson (desc : ShaderStageDesc) : ShaderStageDesc :=
  {desc with entryPoint := cString desc.entryPoint, sourceKey := cString desc.sourceKey}

def GraphicsPipelineDesc.throughJson (desc : GraphicsPipelineDesc) : GraphicsPipelineDesc :=
  {desc with
    shaderStages := desc.shaderStages.map ShaderStageDesc.throughJson, colorBlend := desc.colorBlend.throughJson}

theorem readWord_hexWord (word : UInt32) : readWord (.string (hexWord word)) = .ok word := by
  have hdigit : ∀ c : UInt8, (digitValue? c).isSome → c ≠ 0 := by
    rintro c hc rfl
    cases hc
  have hc : cString (hexWord word) = hexWord word := by
    apply List.takeWhile_eq_self_iff.mpr
    intro c hmem
    rw [hexWord, List.mem_append] at hmem
    cases hmem with
    | inl h =>
      rcases List.mem_pair.mp h with rfl | rfl
      · rfl
      · rfl
    | inr h => exact decide_eq_true (hdigit c (isSome_hexDigits c h))
  unfold readWord
  rw [Json.getString?_string, Option.getD_some, hc, stoul_hexWord]
  simp [Bind.bind, Except.bind, Pure.pure, Except.pure]

theorem mapM_readWord (words : List UInt32) :
    ((words.map fun word => Json.string (hexWord word)).filter fun s => s.getString?.isSome).mapM readWord =
      .ok words := by
  have hall : (words.map fun word => Json.string (hexWord word)).filter (fun s => s.getString?.isSome) =
      words.map fun word => Json.string (hexWord word) := by
    apply List.filter_eq_self.mpr
    intro s hs
    obtain ⟨word, -, rfl⟩ := List.mem_map.mp hs
    rfl
  have hread : ∀ word, readWord (.string (hexWord word)) = .ok (id word) := readWord_hexWord
  rw [hall, mapM_read hread, List.map_id]

theorem readShaderStage_writeShaderStage (desc : ShaderStageDesc) :
    readShaderStage (writeShaderStage enumName desc) = .ok desc.throughJson := by
  have hstage : jrEnum (writeShaderStage enumName desc) "stage" = desc.stage :=
    jrEnum_of_find (by simp (disch := decide) [writeShaderStage])
  have hentry : jrStr (writeShaderStage enumName desc) "entryPoint" [0x6d, 0x61, 0x69, 0x6e] =
      cString desc.entryPoint :=
    jrStr_of_find (by simp (disch := decide) [writeShaderStage])
  have hsource : jrStr (writeShaderStage enumName desc) "sourceKey" = cString desc.sourceKey := by
    by_cases hs : desc.sourceKey = []
    · -- an empty key is left out, and read as the empty default
      have hnone : (writeShaderStage enumName desc).find "sourceKey" = none := by
        simp (disch := decide) [writeShaderStage, hs]
        rfl
      rw [jrStr, hnone, hs]
      rfl
    · exact jrStr_of_find (by simp (disch := decide) [writeShaderStage, hs])
  have hspirv : jrArray (writeShaderStage enumName desc) "spirv" =
      desc.spirv.map fun word => Json.string (hexWord word) := by
    by_cases hs : desc.sourceKey = []
    · exact jrArray_of_find (by simp (disch := decide) [writeShaderStage, hs])
    · exact jrArray_of_find (by simp (disch := decide) [writeShaderStage, hs])
  rw [readShaderStage, hspirv, mapM_readWord, hstage, hentry, hsource]
  rfl

theorem readMetaAndValidate_of_find {vkHeaderVersionComplete : UInt32} {doc : Json} (context : String)
    (h : doc.find "_meta" = some (writeMetaObj (currentDescFileHeader vkHeaderVersionComplete)).2) :
    readMetaAndValidate vkHeaderVersionComplete doc context = .ok () := by
  have hmagic : jrStr (writeMetaObj (currentDescFileHeader vkHeaderVersionComplete)).2 "magic" =
      [0x5a, 0x53, 0x50, 0x44] :=
    jrStr_of_find (by simp [writeMetaObj])
  have hformat : jrU32 (writeMetaObj (currentDescFileHeader vkHeaderVersionComplete)).2 "formatVersion" =
      descFileFormatVersion :=
    jrU32_of_find (by simp (disch := decide) [writeMetaObj, currentDescFileHeader])
  have hvk : jrStr (writeMetaObj (currentDescFileHeader vkHeaderVersionComplete)).2 "vkHeaderVersion" =
      hexWord vkHeaderVersionComplete :=
    jrStr_of_find (by simp (disch := decide) [writeMetaObj, currentDescFileHeader])
  have hzpc : jrStr (writeMetaObj (currentDescFileHeader vkHeaderVersionComplete)).2 "zpcVersion" =
      hexWord zpcVersionEncoded :=
    jrStr_of_find (by simp (disch := decide) [writeMetaObj, currentDescFileHeader])
  have hne : ∀ n, hexWord n ≠ [] := fun n => List.cons_ne_nil _ _
  have hread : readMetaFromValue (writeMetaObj (currentDescFileHeader vkHeaderVersionComplete)).2 =
      .ok (currentDescFileHeader vkHeaderVersionComplete) := by
    unfold readMetaFromValue
    rw [hmagic, hformat, hvk, hzpc]
    simp only [ne_eq, not_true_eq_false, if_false, hne, not_false_eq_true, if_true, stoul_hexWord]
    simp [Bind.bind, Except.bind, Pure.pure, Except.pure, currentDescFileHeader, descFileMagic]
  unfold readMetaAndValidate
  rw [h]
  simp only
  rw [hread]
  simp only [Bind.bind, Except.bind]
  rw [validateHeader_eq_none.mpr rfl]
  rfl

theorem writeMetaObj_eq (hdr : DescFileHeader) : writeMetaObj hdr = ("_meta", (writeMetaObj hdr).2) := rfl

theorem readDocument_writeDocument (vkHeaderVersionComplete : UInt32) {desc : GraphicsPipelineDesc}
    (h : desc.FloatsFinite) :
    readDocument vkHeaderVersionComplete (writeDocument enumName vkHeaderVersionComplete desc) =
      .ok desc.throughJson := by
  generalize hdoc : writeDocument enumName vkHeaderVersionComplete desc = doc
  rw [writeDocument, writeMetaObj_eq] at hdoc
  have hmeta : doc.find "_meta" = some (writeMetaObj (currentDescFileHeader vkHeaderVersionComplete)).2 := by
    rw [← hdoc]
    simp
  have hstages : jrArray doc "shaderStages" = desc.shaderStages.map (writeShaderStage enumName) :=
    jrArray_of_find (by rw [← hdoc]; simp (disch := decide))
  obtain ⟨hvertex, hassembly, hviewport, hraster, hsample, hdepth, hblend, hdynamic⟩ :
      doc.find "vertexInput" = some (writeVertexInput enumName desc.vertexInput) ∧
      doc.find "inputAssembly" = some (writeInputAssembly enumName desc.inputAssembly) ∧
      doc.find "viewport" = some (writeViewport desc.viewport) ∧
      doc.find "rasterization" = some (writeRasterization enumName desc.rasterization) ∧
      doc.find "multisample" = some (writeMultisample enumName desc.multisample) ∧
      doc.find "depthStencil" = some (writeDepthStencil enumName desc.depthStencil) ∧
      doc.find "colorBlend" = some (writeColorBlend enumName desc.colorBlend) ∧
      doc.find "dynamicState" = some (writeDynamicState enumName desc.dynamicState) := by
    rw [← hdoc]
    simp (disch := decide)
  have hranges : jrArray doc "pushConstantRanges" = desc.pushConstantRanges.map writePushConstantRange :=
    jrArray_of_find (by rw [← hdoc]; simp (disch := decide))
  have hsubpass : jrU32 doc "subpass" = desc.subpass :=
    jrU32_of_find (by rw [← hdoc]; simp (disch := decide))
  unfold readDocument
  rw [readMetaAndValidate_of_find _ hmeta, hstages, mapM_read readShaderStage_writeShaderStage, hvertex, hassembly,
    hviewport, hraster, hsample, hdepth, hblend, hdynamic, hranges, hsubpass,
    map_read readPushConstantRange_writePushConstantRange]
  simp only [Option.map_some, Option.getD_some, readVertexInput_writeVertexInput, readInputAssembly_writeInputAssembly,
    readViewport_writeViewport, readRasterization_writeRasterization h.rasterization,
    readMultisample_writeMultisample h.minSampleShading, readDepthStencil_writeDepthStencil h.depthStencil,
    readColorBlend_writeColorBlend h.blendConstants, readDynamicState_writeDynamicState]
  rfl

/-! ### Nothing is left out -/

theorem complete_jwEnum {k : String} {t : EnumType} {v : VkEnum} :
    ∀ m ∈ jwEnum enumName k t v, m.2.complete = true := by
  intro m hm
  unfold jwEnum at hm
  cases List.mem_cons.mp hm with
  | inl h => rw [h, Json.complete_int]
  | inr h =>
    split at h
    · exact absurd h List.not_mem_nil
    · rw [List.mem_singleton.mp h, Json.complete_string]

theorem complete_map {α : Type} {write : α → Json} {l : List α} (h : ∀ a, (write a).complete = true) :
    (Json.array (l.map write)).complete = true := by
  apply Json.complete_array.mpr
  intro v hv
  obtain ⟨a, -, rfl⟩ := List.mem_map.mp hv
  exact h a

theorem complete_jwStencilOp (key : String) (s : StencilOpState) :
    (jwStencilOp enumName key s).2.complete = true := by
  apply Json.complete_object.mpr
  simp only [List.forall_mem_append]
  exact ⟨⟨⟨⟨complete_jwEnum, complete_jwEnum⟩, complete_jwEnum⟩, complete_jwEnum⟩, by simp⟩

theorem complete_writeBinding (b : VertexInputBindingDescription) : (writeBinding enumName b).complete = true := by
  apply Json.complete_object.mpr
  simp only [List.forall_mem_append]
  exact ⟨by simp, complete_jwEnum⟩

theorem complete_writeAttribute (a : VertexInputAttributeDescription) : (writeAttribute enumName a).complete = true := by
  apply Json.complete_object.mpr
  simp only [List.forall_mem_append]
  exact ⟨⟨by simp, complete_jwEnum⟩, by simp⟩

theorem complete_writeRasterization {desc : RasterizationStateDesc} (h : desc.FloatsFinite) :
    (writeRasterization enumName desc).complete = true := by
  apply Json.complete_object.mpr
  simp only [List.forall_mem_append]
  refine ⟨⟨⟨⟨by simp, complete_jwEnum⟩, by simp [jwFlags]⟩, complete_jwEnum⟩, ?_⟩
  simp [Json.complete_ofFloat h.lineWidth, Json.complete_ofFloat h.depthBiasConstantFactor,
    Json.complete_ofFloat h.depthBiasClamp, Json.complete_ofFloat h.depthBiasSlopeFactor]

theorem complete_writeMultisample {desc : MultisampleStateDesc} (h : IsFinite desc.minSampleShading) :
    (writeMultisample enumName desc).complete = true := by
  apply Json.complete_object.mpr
  simp only [List.forall_mem_append]
  exact ⟨⟨by simp, complete_jwEnum⟩, by simp [Json.complete_ofFloat h]⟩

theorem complete_writeDepthStencil {desc : DepthStencilStateDesc} (h : desc.FloatsFinite) :
    (writeDepthStencil enumName desc).complete = true := by
  apply Json.complete_object.mpr
  simp only [List.forall_mem_append]
  refine ⟨⟨by simp, complete_jwEnum⟩, ?_⟩
  simp [complete_jwStencilOp, Json.complete_ofFloat h.minDepthBounds, Json.complete_ofFloat h.maxDepthBounds]

theorem complete_writeAttachment (a : PipelineColorBlendAttachmentState) :
    (writeAttachment enumName a).complete = true := by
  apply Json.complete_object.mpr
  simp only [List.forall_mem_append]
  exact ⟨⟨⟨⟨⟨⟨⟨by simp, complete_jwEnum⟩, complete_jwEnum⟩, complete_jwEnum⟩, complete_jwEnum⟩, complete_jwEnum⟩,
    complete_jwEnum⟩, by simp⟩

theorem complete_writeColorBlend {desc : ColorBlendStateDesc} (h : desc.blendConstants.FloatsFinite) :
    (writeColorBlend enumName desc).complete = true := by
  apply Json.complete_object.mpr
  simp only [List.forall_mem_append]
  refine ⟨⟨by simp, complete_jwEnum⟩, ?_⟩
  simp only [List.forall_mem_cons, List.not_mem_nil, false_imp_iff, implies_true, and_true]
  refine ⟨complete_map complete_writeAttachment, Json.complete_array.mpr ?_⟩
  simp [Json.complete_ofFloat h.r, Json.complete_ofFloat h.g, Json.complete_ofFloat h.b, Json.complete_ofFloat h.a]

theorem complete_writeShaderStage (desc : ShaderStageDesc) : (writeShaderStage enumName desc).complete = true := by
  apply Json.complete_object.mpr
  simp only [List.forall_mem_append]
  refine ⟨⟨⟨complete_jwEnum, by simp⟩, ?_⟩, ?_⟩
  · split <;> simp
  · simp only [List.forall_mem_cons, List.not_mem_nil, false_imp_iff, implies_true, and_true]
    exact ⟨Json.complete_uint _, complete_map fun _ => Json.complete_string _⟩

theorem complete_writeDocument (vkHeaderVersionComplete : UInt32) {desc : GraphicsPipelineDesc}
    (h : desc.FloatsFinite) : (writeDocument enumName vkHeaderVersionComplete desc).complete = true := by
  apply Json.complete_object.mpr
  simp only [List.forall_mem_cons, List.not_mem_nil, false_imp_iff, implies_true, and_true]
  refine ⟨?_, complete_map complete_writeShaderStage, ?_, ?_, ?_, complete_writeRasterization h.rasterization,
    complete_writeMultisample h.minSampleShading, complete_writeDepthStencil h.depthStencil,
    complete_writeColorBlend h.blendConstants, ?_, ?_, Json.complete_uint _⟩
  · exact Json.complete_object.mpr (by simp)
  · apply Json.complete_object.mpr
    simp [complete_map complete_writeBinding, complete_map complete_writeAttribute]
  · apply Json.complete_object.mpr
    simp only [List.forall_mem_append]
    exact ⟨complete_jwEnum, by simp⟩
  · exact Json.complete_object.mpr (by simp)
  · apply Json.complete_object.mpr
    simp only [List.forall_mem_cons, List.not_mem_nil, false_imp_iff, implies_true, and_true]
    exact ⟨complete_map fun _ => Json.complete_int _, complete_map fun _ => Json.complete_string _⟩
  · exact complete_map fun r => Json.complete_object.mpr (by simp)

theorem readJson_writeJson {lib : Library} (hlib : lib.Faithful) (vkHeaderVersionComplete : UInt32)
    {desc : GraphicsPipelineDesc} (h : desc.FloatsFinite) :
    GraphicsPipelineDesc.readJson lib vkHeaderVersionComplete (desc.writeJson enumName lib vkHeaderVersionComplete) =
      .ok desc.throughJson := by
  unfold GraphicsPipelineDesc.readJson GraphicsPipelineDesc.writeJson
  rw [hlib _ (complete_writeDocument vkHeaderVersionComplete h)]
  exact readDocument_writeDocument vkHeaderVersionComplete h

/-! ### What comes back as it was -/

/-- No null bytes in the names of the stages, and Booleans that are 0 or 1. -/
structure GraphicsPipelineDesc.KeptByJson (desc : GraphicsPipelineDesc) : Prop where
  entryPoint : ∀ stage ∈ desc.shaderStages, 0 ∉ stage.entryPoint
  sourceKey : ∀ stage ∈ desc.shaderStages, 0 ∉ stage.sourceKey
  blendEnable : ∀ a ∈ desc.colorBlend.attachments, a.blendEnable = 0 ∨ a.blendEnable = 1

theorem cString_eq_iff {s : ByteString} : cString s = s ↔ 0 ∉ s := by
  unfold cString
  rw [List.takeWhile_eq_self_iff]
  constructor
  · intro h hmem
    exact absurd (h 0 hmem) (by decide)
  · intro h c hc
    apply decide_eq_true
    rintro rfl
    exact h hc

theorem throughJson_stage_iff {desc : ShaderStageDesc} :
    desc.throughJson = desc ↔ 0 ∉ desc.entryPoint ∧ 0 ∉ desc.sourceKey := by
  rw [← cString_eq_iff, ← cString_eq_iff]
  constructor
  · intro h
    exact ⟨congrArg ShaderStageDesc.entryPoint h, congrArg ShaderStageDesc.sourceKey h⟩
  · intro h
    unfold ShaderStageDesc.throughJson
    rw [h.1, h.2]

theorem throughJson_attachment_iff {a : PipelineColorBlendAttachmentState} :
    a.throughJson = a ↔ a.blendEnable = 0 ∨ a.blendEnable = 1 := by
  have hblend : a.throughJson = a ↔ (if a.blendEnable = 0 then 0 else 1) = a.blendEnable := by
    constructor
    · exact congrArg PipelineColorBlendAttachmentState.blendEnable
    · intro h
      unfold PipelineColorBlendAttachmentState.throughJson
      rw [h]
  rw [hblend]
  by_cases h0 : a.blendEnable = 0
  · simp [h0]
  · simp [h0, eq_comm]

theorem map_eq_self_iff {α : Type} {f : α → α} {l : List α} : l.map f = l ↔ ∀ a ∈ l, f a = a := by
  constructor
  · intro h a ha
    exact List.map_inj_left.mp (h.trans (List.map_id l).symm) a ha
  · intro h
    exact (List.map_congr_left h).trans (List.map_id l)

theorem throughJson_eq_iff {desc : GraphicsPipelineDesc} : desc.throughJson = desc ↔ desc.KeptByJson := by
  have hfields : desc.throughJson = desc ↔ desc.shaderStages.map ShaderStageDesc.throughJson = desc.shaderStages ∧
      desc.colorBlend.attachments.map PipelineColorBlendAttachmentState.throughJson = desc.colorBlend.attachments := by
    constructor
    · intro h
      exact ⟨congrArg GraphicsPipelineDesc.shaderStages h, congrArg (fun d => d.colorBlend.attachments) h⟩
    · intro h
      unfold GraphicsPipelineDesc.throughJson ColorBlendStateDesc.throughJson
      rw [h.1, h.2]
  rw [hfields, map_eq_self_iff, map_eq_self_iff]
  simp only [throughJson_stage_iff, throughJson_attachment_iff]
  constructor
  · intro h
    exact ⟨fun stage hs => (h.1 stage hs).1, fun stage hs => (h.1 stage hs).2, h.2⟩
  · intro h
    exact ⟨fun stage hs => ⟨h.entryPoint stage hs, h.sourceKey stage hs⟩, h.blendEnable⟩

/-! ### The cache -/

namespace DescriptorCache
variable {lib : Library} {hashDesc : GraphicsPipelineDesc → UInt64} {vkHeaderVersionComplete : UInt32}

theorem json_foldl_save {entries : List (UInt64 × GraphicsPipelineDesc)} (hk : (entries.map Prod.fst).Nodup)
    (cache : DescriptorCache lib) :
    (∀ e ∈ entries, (entries.foldl (fun c e => c.save enumName vkHeaderVersionComplete e.1 e.2) cache).json e.1 =
      some (e.2.writeJson enumName lib vkHeaderVersionComplete)) ∧
    ∀ key ∉ entries.map Prod.fst,
      (entries.foldl (fun c e => c.save enumName vkHeaderVersionComplete e.1 e.2) cache).json key = cache.json key := by
  induction entries generalizing cache with
  | nil => exact ⟨fun e he => absurd he List.not_mem_nil, fun _ _ => rfl⟩
  | cons x entries ih =>
    rw [List.map_cons, List.nodup_cons] at hk
    have ⟨hsaved, hother⟩ := ih hk.2 (cache.save enumName vkHeaderVersionComplete x.1 x.2)
    constructor
    · intro e he
      cases List.mem_cons.mp he with
      | inl h =>
        rw [h, List.foldl_cons, hother x.1 hk.1]
        exact Function.update_self ..
      | inr h => exact hsaved e h
    · intro key hkey
      rw [List.map_cons, List.mem_cons, not_or] at hkey
      rw [List.foldl_cons, hother key hkey.2]
      exact Function.update_of_ne hkey.1 ..

theorem json_saveAll {entries : List (UInt64 × GraphicsPipelineDesc)} (hk : (entries.map Prod.fst).Nodup)
    {e : UInt64 × GraphicsPipelineDesc} (he : e ∈ entries) :
    (saveAll enumName vkHeaderVersionComplete entries : DescriptorCache lib).json e.1 =
      some (e.2.writeJson enumName lib vkHeaderVersionComplete) :=
  (json_foldl_save hk empty).1 e he

theorem load_jsonOnly_iff (hlib : lib.Faithful) {cache : DescriptorCache lib} {key : UInt64}
    {desc : GraphicsPipelineDesc} (old : GraphicsPipelineDesc) (h : desc.FloatsFinite) (hkey : key = hashDesc desc)
    (hjson : cache.json key = some (desc.writeJson enumName lib vkHeaderVersionComplete)) :
    cache.jsonOnly.load hashDesc vkHeaderVersionComplete key old = some desc ↔ desc.KeptByJson := by
  have hload : cache.jsonOnly.load hashDesc vkHeaderVersionComplete key old =
      if hashDesc desc.throughJson = key then some desc.throughJson else none := by
    have hjson' : cache.jsonOnly.json key = some (desc.writeJson enumName lib vkHeaderVersionComplete) := hjson
    have hbinary : cache.jsonOnly.loadBinary hashDesc vkHeaderVersionComplete key old = none := rfl
    rw [load, hbinary]
    simp only
    rw [loadJson, hjson']
    simp only
    rw [readJson_writeJson hlib _ h]
  rw [hload, ← throughJson_eq_iff]
  constructor
  · intro hsome
    split at hsome
    · exact Option.some.inj hsome
    · cases hsome
  · intro he
    rw [he, if_pos hkey.symm]

end DescriptorCache

end RoundTrip

/-- Descriptions and whole caches of them come back from their JSON form exactly when nothing in them is cut. -/
theorem json_round_trip_iff (lib : Library) (hlib : lib.Faithful) (enumName : EnumType → VkEnum → ByteString)
    (hashDesc : GraphicsPipelineDesc → UInt64) (vkHeaderVersionComplete : UInt32) :
    (∀ desc : GraphicsPipelineDesc, desc.FloatsFinite →
      (GraphicsPipelineDesc.readJson lib vkHeaderVersionComplete
        (desc.writeJson enumName lib vkHeaderVersionComplete) = .ok desc ↔ desc.KeptByJson)) ∧
    ∀ (entries : List (UInt64 × GraphicsPipelineDesc)) (old : GraphicsPipelineDesc), (entries.map Prod.fst).Nodup →
      (∀ e ∈ entries, e.1 = hashDesc e.2 ∧ e.2.FloatsFinite) →
      ((∀ e ∈ entries, (DescriptorCache.saveAll enumName vkHeaderVersionComplete entries :
          DescriptorCache lib).jsonOnly.load hashDesc vkHeaderVersionComplete e.1 old = some e.2) ↔
        ∀ e ∈ entries, e.2.KeptByJson) := by
  constructor
  · intro desc h
    rw [readJson_writeJson hlib _ h, Except.ok.injEq, throughJson_eq_iff]
  · intro entries old hk hentries
    have hload : ∀ e ∈ entries, (DescriptorCache.saveAll enumName vkHeaderVersionComplete entries :
        DescriptorCache lib).jsonOnly.load hashDesc vkHeaderVersionComplete e.1 old = some e.2 ↔ e.2.KeptByJson :=
      fun e he => DescriptorCache.load_jsonOnly_iff hlib old (hentries e he).2 (hentries e he).1
        (DescriptorCache.json_saveAll hk he)
    exact ⟨fun h e he => (hload e he).mp (h e he), fun h e he => (hload e he).mpr (h e he)⟩

def asciiBytes (s : String) : ByteString := s.toList.map fun c => UInt8.ofNat c.toNat

/-- The names of a few enumerators. -/
def someNames : EnumType → VkEnum → ByteString
  | .primitiveTopology, 3 => asciiBytes "eTriangleList"
  | .polygonMode, 0 => asciiBytes "eFill"
  | .frontFace, 0 => asciiBytes "eCounterClockwise"
  | .sampleCountFlagBits, 1 => asciiBytes "e1"
  | .compareOp, 0 => asciiBytes "eNever"
  | .compareOp, 3 => asciiBytes "eLessOrEqual"
  | .stencilOp, 0 => asciiBytes "eKeep"
  | .logicOp, 3 => asciiBytes "eCopy"
  | .shaderStageFlagBits, 1 => asciiBytes "eVertex"
  | _, _ => []

/-- One vertex stage with a key. -/
def keyed (sourceKey : ByteString) : GraphicsPipelineDesc where
  shaderStages := [{stage := 1, spirv := [0x07230203], sourceKey}]

theorem default_floatsFinite : ({} : GraphicsPipelineDesc).FloatsFinite :=
  ⟨⟨by decide, by decide, by decide, by decide⟩, by decide, ⟨by decide, by decide⟩,
    ⟨by decide, by decide, by decide, by decide⟩⟩

theorem keyed_floatsFinite (sourceKey : ByteString) : (keyed sourceKey).FloatsFinite :=
  ⟨default_floatsFinite.rasterization, default_floatsFinite.minSampleShading, default_floatsFinite.depthStencil,
    default_floatsFinite.blendConstants⟩

theorem json_round_trip_keyed :
    GraphicsPipelineDesc.readJson trees 7 ((keyed [0x76]).writeJson someNames trees 7) = .ok (keyed [0x76]) ∧
      (DescriptorCache.saveAll someNames 7 [(42, keyed [0x76])] : DescriptorCache trees).jsonOnly.load
        (fun _ => 42) 7 42 {} = some (keyed [0x76]) := by
  have hkept : (keyed [0x76]).KeptByJson := ⟨by decide, by decide, by decide⟩
  have h := json_round_trip_iff trees trees_faithful someNames (fun _ => 42) 7
  have hcache := h.2 [(42, keyed [0x76])] {} (by decide)
    (fun e he => by rw [List.mem_singleton.mp he]; exact ⟨rfl, keyed_floatsFinite _⟩)
  constructor
  · exact (h.1 _ (keyed_floatsFinite _)).mpr hkept
  · exact hcache.mpr (fun e he => by rw [List.mem_singleton.mp he]; exact hkept) _ List.mem_cons_self

/-- A key with a null byte in it is cut. -/
theorem keyed_cut :
    ¬ ∀ desc : GraphicsPipelineDesc, desc.FloatsFinite →
      GraphicsPipelineDesc.readJson trees 7 (desc.writeJson someNames trees 7) = .ok desc := by
  intro h
  have hread := h (keyed [0x76, 0, 0x31]) (keyed_floatsFinite _)
  rw [readJson_writeJson trees_faithful 7 (keyed_floatsFinite _)] at hread
  exact absurd (Except.ok.inj hread) (by decide)

end Zpc.VkPipeline
