import Mathlib.Data.List.Induction
import Zpc.VkPipelineJsonRoundTrip

/-!
# The manager of pipeline states

`PipelineStateManager` of `VkPipelineStateManager.cpp` over any number of program runs
that share the files of one descriptor cache. Both entry points look into the memory
first and then into the files, and only then build in their own way.
-/
namespace Zpc.PipelineStateManager
open VkPipeline JsonDocument

/-- The device, and what all runs of a program have in common. -/
structure Context where
  device : Device
  json : Library
  enumName : EnumType → VkEnum → ByteString
  hashDesc : GraphicsPipelineDesc → UInt64
  vkHeaderVersionComplete : UInt32

/-- Which function built a pipeline: not in the source. -/
inductive Maker
  | builder
  | context
  deriving DecidableEq

structure Pipeline (device : Device) where
  handle : device.Handle
  maker : Maker

/-- The manager of one program run, with the files that outlive it. -/
structure Manager (ctx : Context) where
  cache : UInt64 → Option (Pipeline ctx.device) := fun _ => none
  diskCacheEnabled : Bool
  files : DescriptorCache ctx.json

variable {ctx : Context}

namespace Manager
/-- The key is the hash of the description alone. -/
def computeKey (ctx : Context) (desc : GraphicsPipelineDesc) : UInt64 := ctx.hashDesc desc

def persistToCache (m : Manager ctx) (key : UInt64) (desc : GraphicsPipelineDesc) : Manager ctx :=
  if m.diskCacheEnabled then
    {m with files := m.files.save ctx.enumName ctx.vkHeaderVersionComplete key desc}
  else m

def loadDesc (m : Manager ctx) (key : UInt64) : Option GraphicsPipelineDesc :=
  if m.diskCacheEnabled then m.files.load ctx.hashDesc ctx.vkHeaderVersionComplete key {} else none

/-- `_cache[key] = …`, which an exception on the right leaves undone. -/
def keep (m : Manager ctx) (key : UInt64) (maker : Maker) : Except String ctx.device.Handle → Manager ctx
  | .ok handle => {m with cache := Function.update m.cache key (some ⟨handle, maker⟩)}
  | .error _ => m

/-- What both entry points have in common; `maker` and `built` are of the third way. -/
def lookUp (m : Manager ctx) (desc : GraphicsPipelineDesc) (renderPass : Option ctx.device.RenderPass)
    (setLayouts : List (Option ctx.device.SetLayout)) (maker : Maker) (built : Except String ctx.device.Handle) :
    Except String ctx.device.Handle × Manager ctx :=
  let key := computeKey ctx desc
  match m.cache key with
  | some pipeline => (.ok pipeline.handle, m)
  | none =>
    match m.loadDesc key with
    | some cached =>
      let rebuilt := createGraphicsPipeline ctx.device cached renderPass setLayouts
      (rebuilt, m.keep key .context rebuilt)
    | none =>
      match built with
      | .ok handle => (.ok handle, (m.keep key maker (.ok handle)).persistToCache key desc)
      | .error e => (.error e, m)

def getOrCreate (m : Manager ctx) (desc : GraphicsPipelineDesc) (renderPass : Option ctx.device.RenderPass)
    (shaderModules : List (ShaderModule ctx.device)) (setLayouts : List (Option ctx.device.SetLayout)) :
    Except String ctx.device.Handle × Manager ctx :=
  m.lookUp desc renderPass setLayouts .builder
    (PipelineBuilder.buildFrom ctx.device desc renderPass shaderModules setLayouts)

def getOrCreateFromDesc (m : Manager ctx) (desc : GraphicsPipelineDesc) (renderPass : Option ctx.device.RenderPass)
    (setLayouts : List (Option ctx.device.SetLayout)) : Except String ctx.device.Handle × Manager ctx :=
  m.lookUp desc renderPass setLayouts .context (createGraphicsPipeline ctx.device desc renderPass setLayouts)

end Manager

/-! ## Runs -/

/-- What comes with a description. -/
structure Companions (device : Device) where
  renderPass : Option device.RenderPass
  shaderModules : List (ShaderModule device)
  setLayouts : List (Option device.SetLayout)

inductive Call (device : Device)
  | getOrCreate (desc : GraphicsPipelineDesc) (renderPass : Option device.RenderPass)
      (shaderModules : List (ShaderModule device)) (setLayouts : List (Option device.SetLayout))
  | getOrCreateFromDesc (desc : GraphicsPipelineDesc) (renderPass : Option device.RenderPass)
      (setLayouts : List (Option device.SetLayout))

/-- A call, the start of the next program run, or a change of the files by another program. -/
inductive Event (ctx : Context)
  | call (c : Call ctx.device)
  | restart (diskCacheEnabled : Bool)
  | rewrite (files : DescriptorCache ctx.json)

namespace Call
variable {device : Device}

def desc : Call device → GraphicsPipelineDesc
  | getOrCreate desc _ _ _ => desc
  | getOrCreateFromDesc desc _ _ => desc

def maker : Call device → Maker
  | getOrCreate .. => .builder
  | getOrCreateFromDesc .. => .context

/-- Building anew from the arguments. -/
def direct : Call device → Except String device.Handle
  | getOrCreate desc renderPass shaderModules setLayouts =>
    PipelineBuilder.buildFrom device desc renderPass shaderModules setLayouts
  | getOrCreateFromDesc desc renderPass setLayouts => createGraphicsPipeline device desc renderPass setLayouts

/-- The arguments beside the description are its companions. -/
def Accompanied (companions : Companions device) : Call device → Prop
  | getOrCreate _ renderPass shaderModules setLayouts =>
    companions = ⟨renderPass, shaderModules, setLayouts⟩
  | getOrCreateFromDesc _ renderPass setLayouts =>
    companions.renderPass = renderPass ∧ companions.setLayouts = setLayouts

end Call

namespace Manager
def answer (m : Manager ctx) : Call ctx.device → Except String ctx.device.Handle × Manager ctx
  | .getOrCreate desc renderPass shaderModules setLayouts => m.getOrCreate desc renderPass shaderModules setLayouts
  | .getOrCreateFromDesc desc renderPass setLayouts => m.getOrCreateFromDesc desc renderPass setLayouts

def step (m : Manager ctx) : Event ctx → Manager ctx
  | .call c => (m.answer c).2
  | .restart diskCacheEnabled => {diskCacheEnabled, files := m.files}
  | .rewrite files => {m with files}

def run (m : Manager ctx) (events : List (Event ctx)) : Manager ctx := events.foldl step m

end Manager

/-- One of the two ways to build from a description and its companions. -/
def Maker.make {device : Device} (desc : GraphicsPipelineDesc) (companions : Companions device) :
    Maker → Except String device.Handle
  | builder => PipelineBuilder.buildFrom device desc companions.renderPass companions.shaderModules companions.setLayouts
  | context => createGraphicsPipeline device desc companions.renderPass companions.setLayouts

variable (m : Manager ctx) (events : List (Event ctx))

/-- Each call has the outcome of building anew. -/
def Transparent : Prop :=
  ∀ past c later, events = past ++ .call c :: later → ((m.run past).answer c).1 = c.direct

/-- Hash collisions aside: a description that has the key of a call's description is the same one. -/
structure CollisionFree : Prop where
  calls : ∀ c c', .call c ∈ events → .call c' ∈ events → ctx.hashDesc c.desc = ctx.hashDesc c'.desc →
    c.desc.identity = c'.desc.identity
  files : ∀ past c later, events = past ++ .call c :: later → ∀ desc, (m.run past).loadDesc (ctx.hashDesc c.desc) = some desc →
    ctx.hashDesc desc = ctx.hashDesc c.desc → desc.identity = c.desc.identity

/-- The pipeline in the memory, if there is one, was built as the call builds, and if there is none then no
description is found in place of shader modules. -/
def ServedAsBuilt (c : Call ctx.device) : Prop :=
  match m.cache (ctx.hashDesc c.desc) with
  | some pipeline => pipeline.maker = c.maker
  | none => c.maker = .builder → m.loadDesc (ctx.hashDesc c.desc) = none

/-- Both ways to build have one outcome. -/
def Interchangeable (companions : GraphicsPipelineDesc → Companions ctx.device) (c : Call ctx.device) : Prop :=
  Maker.builder.make c.desc (companions c.desc.identity) = Maker.context.make c.desc (companions c.desc.identity)

section Run
variable {m events} {companions : GraphicsPipelineDesc → Companions ctx.device}

theorem make_congr {desc desc' : GraphicsPipelineDesc} (h : desc.identity = desc'.identity) (maker : Maker) :
    maker.make desc (companions desc.identity) = maker.make desc' (companions desc'.identity) := by
  rw [h]
  cases maker with
  | builder => exact PipelineBuilder.buildFrom_congr h _ _ _
  | context => exact createGraphicsPipeline_congr h _ _

theorem Call.direct_eq {c : Call ctx.device} (h : c.Accompanied (companions c.desc.identity)) :
    c.direct = c.maker.make c.desc (companions c.desc.identity) := by
  cases c with
  | getOrCreate desc renderPass shaderModules setLayouts =>
    have hc : companions desc.identity = ⟨renderPass, shaderModules, setLayouts⟩ := h
    simp only [Call.direct, Call.maker, Call.desc, Maker.make, hc]
  | getOrCreateFromDesc desc renderPass setLayouts =>
    have hc : _ ∧ _ := h
    simp only [Call.direct, Call.maker, Call.desc, Maker.make, ← hc.1, ← hc.2]

/-- A description is loaded under its own hash. -/
theorem hash_of_load {lib : Library} {files : DescriptorCache lib} {hashDesc : GraphicsPipelineDesc → UInt64}
    {version : UInt32} {key : UInt64} {old desc : GraphicsPipelineDesc}
    (h : files.load hashDesc version key old = some desc) : hashDesc desc = key := by
  have hbinary : ∀ d, files.loadBinary hashDesc version key old = some d → hashDesc d = key := by
    intro d hd
    unfold DescriptorCache.loadBinary at hd
    split at hd
    · split at hd
      · split at hd
        · next hkey => cases hd; exact hkey
        · cases hd
      · cases hd
    · cases hd
  have hjson : ∀ d, files.loadJson hashDesc version key = some d → hashDesc d = key := by
    intro d hd
    unfold DescriptorCache.loadJson at hd
    split at hd
    · split at hd
      · split at hd
        · next hkey => cases hd; exact hkey
        · cases hd
      · cases hd
    · cases hd
  unfold DescriptorCache.load at h
  split at h
  · next d hd => cases h; exact hbinary _ hd
  · exact hjson _ h

theorem hash_of_loadDesc {key : UInt64} {desc : GraphicsPipelineDesc} (h : m.loadDesc key = some desc) :
    ctx.hashDesc desc = key := by
  unfold Manager.loadDesc at h
  split at h
  · exact hash_of_load h
  · cases h

theorem answer_eq {c : Call ctx.device} {companions : Companions ctx.device} (h : c.Accompanied companions) :
    m.answer c = m.lookUp c.desc companions.renderPass companions.setLayouts c.maker (c.maker.make c.desc companions) := by
  cases c with
  | getOrCreate desc renderPass shaderModules setLayouts =>
    have hc : companions = ⟨renderPass, shaderModules, setLayouts⟩ := h
    subst hc
    rfl
  | getOrCreateFromDesc desc renderPass setLayouts =>
    have hc : _ ∧ _ := h
    obtain ⟨rfl, rfl⟩ := hc
    rfl

/-- Who serves a call: the memory, or a pipeline made of a description that is at hand. -/
inductive Served (m : Manager ctx) (c : Call ctx.device) (companions : Companions ctx.device) : Prop
  | memory (pipeline : Pipeline ctx.device) (hit : m.cache (ctx.hashDesc c.desc) = some pipeline)
      (answer : m.answer c = (.ok pipeline.handle, m))
  | made (maker : Maker) (desc : GraphicsPipelineDesc) (miss : m.cache (ctx.hashDesc c.desc) = none)
      (from_disk : m.loadDesc (ctx.hashDesc c.desc) = some desc ∧ maker = .context ∨
        m.loadDesc (ctx.hashDesc c.desc) = none ∧ desc = c.desc ∧ maker = c.maker)
      (answer : (m.answer c).1 = maker.make desc companions)
      (cache : (m.answer c).2.cache = (m.keep (ctx.hashDesc c.desc) maker (maker.make desc companions)).cache)

theorem served {c : Call ctx.device} {companions : Companions ctx.device} (h : c.Accompanied companions) :
    Served m c companions := by
  have heq := answer_eq (m := m) h
  unfold Manager.lookUp at heq
  cases hm : m.cache (ctx.hashDesc c.desc) with
  | some pipeline =>
    apply Served.memory pipeline hm
    rw [heq]
    simp only [Manager.computeKey, hm]
  | none =>
    cases hl : m.loadDesc (ctx.hashDesc c.desc) with
    | some desc =>
      simp only [Manager.computeKey, hm, hl] at heq
      apply Served.made .context desc hm (.inl ⟨hl, rfl⟩)
      · rw [heq]
        rfl
      · rw [heq]
        rfl
    | none =>
      simp only [Manager.computeKey, hm, hl] at heq
      apply Served.made c.maker c.desc hm (.inr ⟨hl, rfl, rfl⟩)
      · rw [heq]
        split
        · next handle hbuilt => exact hbuilt.symm
        · next e hbuilt => exact hbuilt.symm
      · rw [heq]
        split
        · next handle hbuilt =>
          rw [hbuilt]
          unfold Manager.persistToCache
          split
          · rfl
          · rfl
        · next e hbuilt =>
          rw [hbuilt]
          rfl

def Remembers (companions : GraphicsPipelineDesc → Companions ctx.device) (m : Manager ctx)
    (past : List (Event ctx)) : Prop :=
  ∀ key pipeline, m.cache key = some pipeline → ∃ c : Call ctx.device, .call c ∈ past ∧ ctx.hashDesc c.desc = key ∧
    pipeline.maker.make c.desc (companions c.desc.identity) = .ok pipeline.handle

theorem Served.identity {c : Call ctx.device} {maker : Maker} {desc : GraphicsPipelineDesc}
    (hfiles : ∀ desc, m.loadDesc (ctx.hashDesc c.desc) = some desc → ctx.hashDesc desc = ctx.hashDesc c.desc →
      desc.identity = c.desc.identity)
    (h : m.loadDesc (ctx.hashDesc c.desc) = some desc ∧ maker = .context ∨
      m.loadDesc (ctx.hashDesc c.desc) = none ∧ desc = c.desc ∧ maker = c.maker) : desc.identity = c.desc.identity := by
  rcases h with ⟨hl, -⟩ | ⟨-, rfl, -⟩
  · exact hfiles desc hl (hash_of_loadDesc hl)
  · rfl

/-- A call adds at most what it made. -/
theorem Remembers.call {past : List (Event ctx)} (hm : Remembers companions m past) {c : Call ctx.device}
    (ha : c.Accompanied (companions c.desc.identity))
    (hfiles : ∀ desc, m.loadDesc (ctx.hashDesc c.desc) = some desc → ctx.hashDesc desc = ctx.hashDesc c.desc →
      desc.identity = c.desc.identity) :
    Remembers companions (m.answer c).2 (past ++ [.call c]) := by
  have hkept : Remembers companions m (past ++ [.call c]) := by
    intro key pipeline hp
    obtain ⟨c', hc', hkey, hmake⟩ := hm key pipeline hp
    exact ⟨c', List.mem_append_left _ hc', hkey, hmake⟩
  cases served (m := m) ha with
  | memory pipeline hit answer =>
    rw [answer]
    exact hkept
  | made maker desc miss from_disk answer cache =>
    intro key pipeline hp
    rw [cache] at hp
    cases hmake : maker.make desc (companions c.desc.identity) with
    | error e =>
      rw [hmake] at hp
      exact hkept key pipeline hp
    | ok handle =>
      rw [hmake] at hp
      have hupdate : Function.update m.cache (ctx.hashDesc c.desc) (some ⟨handle, maker⟩) key = some pipeline := hp
      by_cases hkey : key = ctx.hashDesc c.desc
      · subst hkey
        rw [Function.update_self] at hupdate
        cases hupdate
        have hid := Served.identity hfiles from_disk
        refine ⟨c, List.mem_append_right _ List.mem_cons_self, rfl, ?_⟩
        rw [← make_congr hid, hid]
        exact hmake
      · rw [Function.update_of_ne hkey] at hupdate
        exact hkept key pipeline hupdate

theorem run_concat (m : Manager ctx) (past : List (Event ctx)) (e : Event ctx) :
    m.run (past ++ [e]) = (m.run past).step e := by
  unfold Manager.run
  rw [List.foldl_append, List.foldl_cons, List.foldl_nil]

/-- In every run the memory holds what was made of the descriptions of calls. -/
theorem remembers_run (hm : m.cache = fun _ => none)
    (ha : ∀ c, .call c ∈ events → c.Accompanied (companions c.desc.identity)) (hc : CollisionFree m events)
    {past later : List (Event ctx)} (h : events = past ++ later) : Remembers companions (m.run past) past := by
  induction past using List.reverseRecOn generalizing later with
  | nil =>
    intro key pipeline hp
    have hnone : m.cache key = some pipeline := hp
    rw [hm] at hnone
    cases hnone
  | append_singleton past e ih =>
    rw [List.append_assoc] at h
    have hpast := ih h
    rw [run_concat]
    have hkept : Remembers companions (m.run past) (past ++ [e]) := by
      intro key pipeline hp
      obtain ⟨c', hc', hkey, hmake⟩ := hpast key pipeline hp
      exact ⟨c', List.mem_append_left _ hc', hkey, hmake⟩
    cases e with
    | call c =>
      apply hpast.call
      · exact ha c (by rw [h]; simp)
      · exact hc.files past c later h
    | restart diskCacheEnabled =>
      intro key pipeline hp
      cases hp
    | rewrite files => exact hkept

/-- One call of a run is transparent just as it is served as built, unless both ways to build agree. -/
theorem outcome_iff {past : List (Event ctx)} (hm : Remembers companions m past) {c : Call ctx.device}
    (ha : c.Accompanied (companions c.desc.identity))
    (hcalls : ∀ c', .call c' ∈ past → ctx.hashDesc c'.desc = ctx.hashDesc c.desc → c'.desc.identity = c.desc.identity)
    (hfiles : ∀ desc, m.loadDesc (ctx.hashDesc c.desc) = some desc → ctx.hashDesc desc = ctx.hashDesc c.desc →
      desc.identity = c.desc.identity) :
    (m.answer c).1 = c.direct ↔ ServedAsBuilt m c ∨ Interchangeable companions c := by
  have hagree : ∀ maker : Maker, maker.make c.desc (companions c.desc.identity) = c.direct ↔
      maker = c.maker ∨ Interchangeable companions c := by
    intro maker
    rw [Call.direct_eq ha]
    unfold Interchangeable
    cases maker with
    | builder =>
      cases c.maker with
      | builder => simp
      | context => simp
    | context =>
      cases c.maker with
      | builder => simp [eq_comm]
      | context => simp
  cases served (m := m) ha with
  | memory pipeline hit answer =>
    obtain ⟨c', hc', hkey, hmake⟩ := hm _ _ hit
    rw [make_congr (hcalls c' hc' hkey)] at hmake
    rw [answer, ← hmake, hagree]
    unfold ServedAsBuilt
    rw [hit]
  | made maker desc miss from_disk answer cache =>
    have hid := Served.identity hfiles from_disk
    rw [answer, ← hid, make_congr hid, hagree]
    unfold ServedAsBuilt
    rw [miss]
    apply or_congr_left
    rcases from_disk with ⟨hl, rfl⟩ | ⟨hl, -, rfl⟩
    · rw [hl]
      cases c.maker with
      | builder => simp
      | context => simp
    · simp [hl]

end Run

/-- The manager is transparent in just the runs whose calls are all served as built, or have arguments on which both
ways to build agree. -/
theorem transparent_iff (companions : GraphicsPipelineDesc → Companions ctx.device) (m : Manager ctx)
    (events : List (Event ctx)) (hm : m.cache = fun _ => none)
    (ha : ∀ c, .call c ∈ events → c.Accompanied (companions c.desc.identity)) (hc : CollisionFree m events) :
    Transparent m events ↔ ∀ past c later, events = past ++ .call c :: later →
      ServedAsBuilt (m.run past) c ∨ Interchangeable companions c := by
  have hiff : ∀ past c later, events = past ++ .call c :: later → (((m.run past).answer c).1 = c.direct ↔
      ServedAsBuilt (m.run past) c ∨ Interchangeable companions c) := by
    intro past c later h
    have hmem : .call c ∈ events := by rw [h]; simp
    apply outcome_iff (remembers_run hm ha hc h) (ha c hmem)
    · intro c' hc'
      exact hc.calls c' c (by rw [h]; exact List.mem_append_left _ hc') hmem
    · exact hc.files past c later h
  constructor
  · intro ht past c later h
    exact (hiff past c later h).mp (ht past c later h)
  · intro ht past c later h
    exact (hiff past c later h).mpr (ht past c later h)

/-! ## Two runs of a program -/

/-- A description is found again where it was saved. -/
theorem load_save {lib : Library} {hashDesc : GraphicsPipelineDesc → UInt64} {desc : GraphicsPipelineDesc}
    (h : desc.Fits) (files : DescriptorCache lib) (enumName : EnumType → VkEnum → ByteString) (version : UInt32)
    (old : GraphicsPipelineDesc) :
    (files.save enumName version (hashDesc desc) desc).load hashDesc version (hashDesc desc) old = some desc := by
  have hread := readDesc_writeDesc version desc old h []
  rw [List.append_nil] at hread
  have hbinary : (files.save enumName version (hashDesc desc) desc).loadBinary hashDesc version (hashDesc desc) old =
      some desc := by
    unfold DescriptorCache.loadBinary DescriptorCache.save
    simp only [Function.update_self, hread, if_pos]
  unfold DescriptorCache.load
  rw [hbinary]

/-- A device whose pipelines are what they were asked for as. -/
def recording : Device where
  Module := List UInt32
  SetLayout := Unit
  PipelineLayout := List PushConstantRange
  RenderPass := Unit
  Handle := GraphicsPipelineCreateInfo (List UInt32) (List PushConstantRange) Unit
  createShaderModule spirv _ := .ok spirv
  createDescriptorSetLayout := .ok ()
  createPipelineLayout _ ranges := .ok ranges
  createGraphicsPipelines := some
  reflectVkEnum _ := ""

def recordingContext : Context where
  device := recording
  json := trees
  enumName := someNames
  hashDesc _ := 42
  vkHeaderVersionComplete := 7

def triangle : Companions recording where
  renderPass := some ()
  shaderModules := [{shaderModule := [0x07230203, 1], stageFlag := 1}, {shaderModule := [0x07230203, 2], stageFlag := 16}]
  setLayouts := []

def drawTriangle : Call recordingContext.device :=
  .getOrCreate {} triangle.renderPass triangle.shaderModules triangle.setLayouts

def freshManager : Manager recordingContext where
  diskCacheEnabled := true
  files := DescriptorCache.empty

theorem default_fits : ({} : GraphicsPipelineDesc).Fits := by
  constructor
  · decide
  · intro stage hs
    cases hs
  · decide
  · decide
  · decide
  · decide
  · decide

theorem files_drawn : (freshManager.answer drawTriangle).2.files = DescriptorCache.empty.save someNames 7 42 {} := rfl

theorem loadDesc_drawn {m : Manager recordingContext} (he : m.diskCacheEnabled = true)
    (hf : m.files = (freshManager.answer drawTriangle).2.files) : m.loadDesc 42 = some {} := by
  unfold Manager.loadDesc
  rw [if_pos he, hf, files_drawn]
  exact @load_save trees (fun _ => 42) {} default_fits DescriptorCache.empty someNames 7 {}

/-- Calls with one description do not collide while nothing else is found. -/
theorem collisionFree_drawing {events : List (Event recordingContext)} (hc : ∀ c, .call c ∈ events → c = drawTriangle)
    (hl : ∀ past later, events = past ++ .call drawTriangle :: later →
      (freshManager.run past).loadDesc 42 = none ∨ (freshManager.run past).loadDesc 42 = some {}) :
    CollisionFree freshManager events := by
  constructor
  · intro c c' h h' _
    rw [hc c h, hc c' h']
  · intro past c later h desc hdesc _
    obtain rfl := hc c (by rw [h]; simp)
    rcases hl past later h with hnone | hsome
    · cases hnone.symm.trans hdesc
    · cases hsome.symm.trans hdesc
      rfl

/-- Drawing twice in one run of the program. -/
theorem transparent_twice : Transparent freshManager [.call drawTriangle, .call drawTriangle] := by
  have hcalls : ∀ c, .call c ∈ ([.call drawTriangle, .call drawTriangle] : List (Event recordingContext)) →
      c = drawTriangle := by
    intro c hc
    simpa using hc
  have hsplit : ∀ past c later,
      ([.call drawTriangle, .call drawTriangle] : List (Event recordingContext)) = past ++ .call c :: later →
        c = drawTriangle ∧ (past = [] ∨ past = [.call drawTriangle]) := by
    intro past c later h
    match past with
    | [] => simp at h; exact ⟨h.1.symm, .inl rfl⟩
    | [e] => simp at h; exact ⟨h.2.1.symm, .inr (by rw [h.1])⟩
    | _ :: _ :: _ => simp at h
  apply (transparent_iff (fun _ => triangle) freshManager _ rfl ?_ (collisionFree_drawing hcalls ?_)).mpr
  · intro past c later h
    obtain ⟨rfl, rfl | rfl⟩ := hsplit past c later h
    · exact .inl fun _ => rfl
    · exact .inl rfl
  · intro c hc
    rw [hcalls c hc]
    rfl
  · intro past later h
    obtain ⟨-, rfl | rfl⟩ := hsplit past drawTriangle later h
    · exact .inl rfl
    · exact .inr (loadDesc_drawn rfl rfl)

/-- The second run builds from the description that it finds. -/
theorem answer_second_run : ((freshManager.run [.call drawTriangle, .restart true]).answer drawTriangle).1 =
    createGraphicsPipeline recording {} triangle.renderPass triangle.setLayouts := by
  have hl : (freshManager.run [.call drawTriangle, .restart true]).loadDesc 42 = some {} := loadDesc_drawn rfl rfl
  have hserved : Served (freshManager.run [.call drawTriangle, .restart true]) drawTriangle triangle := served rfl
  cases hserved with
  | memory pipeline hit answer => cases hit
  | made maker desc miss from_disk answer cache =>
    rcases from_disk with ⟨hl', rfl⟩ | ⟨hl', -, -⟩
    · cases hl.symm.trans hl'
      exact answer
    · cases hl.symm.trans hl'

/-- Drawing in two runs of the program: the second one fails, as the description has no stages. -/
theorem draw_in_two_runs : ¬ ∀ (ctx : Context) (companions : GraphicsPipelineDesc → Companions ctx.device)
    (m : Manager ctx) (events : List (Event ctx)), m.cache = (fun _ => none) →
    (∀ c, .call c ∈ events → c.Accompanied (companions c.desc.identity)) → CollisionFree m events →
    Transparent m events := by
  intro h
  have hcalls : ∀ c, .call c ∈ ([.call drawTriangle, .restart true, .call drawTriangle] :
      List (Event recordingContext)) → c = drawTriangle := by
    intro c hc
    simpa using hc
  have hsplit : ∀ past c later,
      ([.call drawTriangle, .restart true, .call drawTriangle] : List (Event recordingContext)) =
        past ++ .call c :: later → past = [] ∨ past = [.call drawTriangle, .restart true] := by
    intro past c later h
    match past with
    | [] => exact .inl rfl
    | [_] => simp at h
    | [e, e'] => simp at h; exact .inr (by rw [h.1, h.2.1])
    | _ :: _ :: _ :: _ => simp at h
  have ht := h recordingContext (fun _ => triangle) freshManager
    [.call drawTriangle, .restart true, .call drawTriangle] rfl ?_ (collisionFree_drawing hcalls ?_)
  · cases answer_second_run.symm.trans (ht [.call drawTriangle, .restart true] drawTriangle [] rfl)
  · intro c hc
    rw [hcalls c hc]
    rfl
  · intro past later h
    rcases hsplit past drawTriangle later h with rfl | rfl
    · exact .inl rfl
    · exact .inr (loadDesc_drawn rfl rfl)

end Zpc.PipelineStateManager
