import Mathlib.Data.List.Induction

/-!
# The shader manager

Two tables under one deduplication key: the live modules and the stage descriptions. Compilers and the device are outside
the repository, so a binary is kept as the compilation that gave it; whether they throw is given with each call.
-/
namespace Zpc.Shader
variable {Src Path Stage : Type}

/-- The keys of the tables, hash collisions aside: `sourceHashKey` of a source and a stage, or an absolute path. -/
inductive Key (Src Path Stage : Type)
  | source (src : Src) (stage : Stage)
  | file (path : Path)
  deriving DecidableEq

inductive ModuleName (Src Path Stage : Type)
  | key (k : Key Src Path Stage)
  | text (name : String)

inductive Spirv (Src Path Stage : Type)
  | glsl (src : Src) (stage : Stage) (name : ModuleName Src Path Stage)
  | hlsl (src : Src) (stage : Stage) (name : ModuleName Src Path Stage) (entryPoint : String)
  | words (src : Src)

structure ShaderModule (Src Path Stage : Type) where
  spirv : Spirv Src Path Stage
  stageFlag : Stage
  entryPoint : String

structure ShaderStageDesc (Src Path Stage : Type) where
  stage : Stage
  spirv : Spirv Src Path Stage
  entryPoint : String
  sourceKey : Key Src Path Stage

/-- The tables `_modules` and `_stageDescs`. -/
structure Manager (Src Path Stage : Type) where
  modules : Key Src Path Stage → Option (ShaderModule Src Path Stage)
  stageDescs : Key Src Path Stage → Option (ShaderStageDesc Src Path Stage)

def Manager.empty : Manager Src Path Stage := ⟨fun _ => none, fun _ => none⟩

/-- The file system: absolute paths, the contents of files, and whether their size is a multiple of a word. -/
structure Files (Src Path : Type) where
  absolutePath : Path → Path
  contents : Path → Option Src
  aligned : Src → Bool

inductive Fault | read | alignment | compile | create | missing
  deriving DecidableEq

section Source
variable [DecidableEq Src] [DecidableEq Path] [DecidableEq Stage] (files : Files Src Path) (fault : Option Fault)

def readFileContents (filePath : Path) : Except Fault Src :=
  match files.contents (files.absolutePath filePath) with
  | some src => .ok src
  | none => .error .read

/-- A compiler, which throws in this call or gives a binary. -/
def compile (spirv : Spirv Src Path Stage) : Except Fault (Spirv Src Path Stage) :=
  if fault = some .compile then .error .compile else .ok spirv

def insertStageDesc (s : Manager Src Path Stage) (key : Key Src Path Stage) (stage : Stage)
    (spirv : Spirv Src Path Stage) (entryPoint : String) : Manager Src Path Stage :=
  match s.stageDescs key with
  | some _ => s
  | none => {s with stageDescs := Function.update s.stageDescs key (some ⟨stage, spirv, entryPoint, key⟩)}

/-- What every load does: answer from the module table, or obtain a binary, create the module and fill both tables. -/
def load (key : Key Src Path Stage) (stage : Stage) (obtain : Except Fault (Spirv Src Path Stage))
    (entryPoint : String) (s : Manager Src Path Stage) :
    Except Fault (ShaderModule Src Path Stage) × Manager Src Path Stage :=
  match s.modules key with
  | some m => (.ok m, s)
  | none =>
    match obtain with
    | .error e => (.error e, s)
    | .ok spirv =>
      if fault = some .create then (.error .create, s)
      else
        let m : ShaderModule Src Path Stage := ⟨spirv, stage, entryPoint⟩
        (.ok m, insertStageDesc {s with modules := Function.update s.modules key (some m)} key stage spirv entryPoint)

def moduleNameOr (label : Key Src Path Stage) (moduleName : String) : ModuleName Src Path Stage :=
  if moduleName.isEmpty then .key label else .text moduleName

def loadFromGlsl (label : Key Src Path Stage) (stage : Stage) (glslCode : Src) (moduleName : String) :=
  load fault label stage (compile fault (.glsl glslCode stage (moduleNameOr label moduleName))) "main"

def loadFromHlsl (label : Key Src Path Stage) (stage : Stage) (hlslCode : Src) (moduleName entryPoint : String) :=
  load fault label stage (compile fault (.hlsl hlslCode stage (moduleNameOr label moduleName) entryPoint)) entryPoint

def loadFromGlslFile (filePath : Path) (stage : Stage) (s : Manager Src Path Stage) :=
  let key := .file (files.absolutePath filePath)
  load fault key stage (do
    let src ← readFileContents files filePath
    compile fault (.glsl src stage (.key key))) "main" s

def loadFromHlslFile (filePath : Path) (stage : Stage) (entryPoint : String) (s : Manager Src Path Stage) :=
  let key := .file (files.absolutePath filePath)
  load fault key stage (do
    let src ← readFileContents files filePath
    compile fault (.hlsl src stage (.key key) entryPoint)) entryPoint s

def loadFromSpirvFile (filePath : Path) (stage : Stage) (s : Manager Src Path Stage) :=
  let key := .file (files.absolutePath filePath)
  load fault key stage (do
    let data ← readFileContents files filePath
    if files.aligned data then .ok (.words data) else .error .alignment) "main" s

def loadGlsl (stage : Stage) (glslCode : Src) (moduleName : String) (s : Manager Src Path Stage) :=
  loadFromGlsl fault (.source glslCode stage) stage glslCode moduleName s

def loadHlsl (stage : Stage) (hlslCode : Src) (moduleName entryPoint : String) (s : Manager Src Path Stage) :=
  loadFromHlsl fault (.source hlslCode stage) stage hlslCode moduleName entryPoint s

/-- What every `stageDescFrom*File` does: answer from the descriptions, or load and read the description back. -/
def stageDescFrom (filePath : Path)
    (loadFile : Manager Src Path Stage → Except Fault (ShaderModule Src Path Stage) × Manager Src Path Stage)
    (s : Manager Src Path Stage) : Except Fault (ShaderStageDesc Src Path Stage) × Manager Src Path Stage :=
  let key := .file (files.absolutePath filePath)
  match s.stageDescs key with
  | some d => (.ok d, s)
  | none =>
    match loadFile s with
    | (.error e, s) => (.error e, s)
    | (.ok _, s) =>
      match s.stageDescs key with
      | some d => (.ok d, s)
      | none => (.error .missing, s)

def stageDescFromGlslFile (filePath : Path) (stage : Stage) :=
  stageDescFrom files filePath (loadFromGlslFile files fault filePath stage)

def stageDescFromHlslFile (filePath : Path) (stage : Stage) (entryPoint : String) :=
  stageDescFrom files filePath (loadFromHlslFile files fault filePath stage entryPoint)

def stageDescFromSpirvFile (filePath : Path) (stage : Stage) :=
  stageDescFrom files filePath (loadFromSpirvFile files fault filePath stage)

end Source

inductive Call (Src Path Stage : Type)
  | loadGlsl (stage : Stage) (code : Src) (moduleName : String)
  | loadHlsl (stage : Stage) (code : Src) (moduleName entryPoint : String)
  | loadFromGlslFile (filePath : Path) (stage : Stage)
  | loadFromHlslFile (filePath : Path) (stage : Stage) (entryPoint : String)
  | stageDescFromGlslFile (filePath : Path) (stage : Stage)
  | stageDescFromHlslFile (filePath : Path) (stage : Stage) (entryPoint : String)
  | stageDescFromSpirvFile (filePath : Path) (stage : Stage)

inductive Answer (Src Path Stage : Type)
  | module (m : ShaderModule Src Path Stage)
  | desc (d : ShaderStageDesc Src Path Stage)

section Step
variable [DecidableEq Src] [DecidableEq Path] [DecidableEq Stage] (files : Files Src Path)

def answerModule (r : Except Fault (ShaderModule Src Path Stage) × Manager Src Path Stage) :
    Except Fault (Answer Src Path Stage) × Manager Src Path Stage := (r.1.map .module, r.2)

def answerDesc (r : Except Fault (ShaderStageDesc Src Path Stage) × Manager Src Path Stage) :
    Except Fault (Answer Src Path Stage) × Manager Src Path Stage := (r.1.map .desc, r.2)

def step (fault : Option Fault) (s : Manager Src Path Stage) :
    Call Src Path Stage → Except Fault (Answer Src Path Stage) × Manager Src Path Stage
  | .loadGlsl stage code name => answerModule (loadGlsl fault stage code name s)
  | .loadHlsl stage code name entryPoint => answerModule (loadHlsl fault stage code name entryPoint s)
  | .loadFromGlslFile path stage => answerModule (loadFromGlslFile files fault path stage s)
  | .loadFromHlslFile path stage entryPoint => answerModule (loadFromHlslFile files fault path stage entryPoint s)
  | .stageDescFromGlslFile path stage => answerDesc (stageDescFromGlslFile files fault path stage s)
  | .stageDescFromHlslFile path stage entryPoint =>
    answerDesc (stageDescFromHlslFile files fault path stage entryPoint s)
  | .stageDescFromSpirvFile path stage => answerDesc (stageDescFromSpirvFile files fault path stage s)

/-- A sequence of calls so far: the tables, and the calls that completed, in order. -/
structure Run (Src Path Stage : Type) where
  state : Manager Src Path Stage
  done : List (Call Src Path Stage)

def Run.next (r : Run Src Path Stage) (c : Option Fault × Call Src Path Stage) : Run Src Path Stage :=
  ⟨(step files c.1 r.state c.2).2,
    if (step files c.1 r.state c.2).1.toBool then r.done ++ [c.2] else r.done⟩

/-- The sequence from an empty manager. -/
def run (calls : List (Option Fault × Call Src Path Stage)) : Run Src Path Stage :=
  calls.foldl (Run.next files) ⟨.empty, []⟩

end Step

section Meaning
variable (files : Files Src Path)

inductive Language | glsl | hlsl | spirv
  deriving DecidableEq

/-- What a call passes in. -/
structure Request (Src Stage : Type) where
  language : Language
  source : Src
  stage : Stage
  entryPoint : String
  deriving DecidableEq

def Call.key : Call Src Path Stage → Key Src Path Stage
  | .loadGlsl stage code _ => .source code stage
  | .loadHlsl stage code _ _ => .source code stage
  | .loadFromGlslFile path _ => .file (files.absolutePath path)
  | .loadFromHlslFile path _ _ => .file (files.absolutePath path)
  | .stageDescFromGlslFile path _ => .file (files.absolutePath path)
  | .stageDescFromHlslFile path _ _ => .file (files.absolutePath path)
  | .stageDescFromSpirvFile path _ => .file (files.absolutePath path)

/-- The contents of a file that can be read are the source passed in. -/
def Files.request (language : Language) (path : Path) (stage : Stage) (entryPoint : String) :
    Option (Request Src Stage) :=
  (files.contents (files.absolutePath path)).map fun src => ⟨language, src, stage, entryPoint⟩

def Call.request : Call Src Path Stage → Option (Request Src Stage)
  | .loadGlsl stage code _ => some ⟨.glsl, code, stage, "main"⟩
  | .loadHlsl stage code _ entryPoint => some ⟨.hlsl, code, stage, entryPoint⟩
  | .loadFromGlslFile path stage => files.request .glsl path stage "main"
  | .loadFromHlslFile path stage entryPoint => files.request .hlsl path stage entryPoint
  | .stageDescFromGlslFile path stage => files.request .glsl path stage "main"
  | .stageDescFromHlslFile path stage entryPoint => files.request .hlsl path stage entryPoint
  | .stageDescFromSpirvFile path stage => files.request .spirv path stage "main"

/-- The binary comes from the source of the request, by its language, for its stage and entry point. -/
def Spirv.From (q : Request Src Stage) : Spirv Src Path Stage → Prop
  | .glsl src stage _ => q = ⟨.glsl, src, stage, "main"⟩
  | .hlsl src stage _ entryPoint => q = ⟨.hlsl, src, stage, entryPoint⟩
  | .words src => q.language = .spirv ∧ q.source = src

def ShaderModule.From (m : ShaderModule Src Path Stage) (q : Request Src Stage) : Prop :=
  m.spirv.From q ∧ m.stageFlag = q.stage ∧ m.entryPoint = q.entryPoint

def ShaderStageDesc.From (d : ShaderStageDesc Src Path Stage) (q : Request Src Stage) : Prop :=
  d.spirv.From q ∧ d.stage = q.stage ∧ d.entryPoint = q.entryPoint

def Answer.From (q : Request Src Stage) : Answer Src Path Stage → Prop
  | .module m => m.From q
  | .desc d => d.From q

/-- A call that passes source text rather than a file. -/
def Call.bySource : Call Src Path Stage → Bool
  | .loadGlsl .. => true
  | .loadHlsl .. => true
  | _ => false

end Meaning

section Obtain
variable {files : Files Src Path} {fault : Option Fault} {s : Manager Src Path Stage} {q : Request Src Stage}
  {d : ShaderStageDesc Src Path Stage}

def Obtains (request : Option (Request Src Stage)) (stage : Stage) (entryPoint : String)
    (obtain : Except Fault (Spirv Src Path Stage)) : Prop :=
  ∀ spirv, obtain = .ok spirv → ∃ q, request = some q ∧ spirv.From q ∧ q.stage = stage ∧ q.entryPoint = entryPoint

theorem compile_eq {sp spirv : Spirv Src Path Stage} (h : compile fault sp = .ok spirv) : spirv = sp := by
  rw [compile] at h
  split_ifs at h
  exact (Except.ok.inj h).symm

theorem obtains_compile {sp : Spirv Src Path Stage} (hfrom : sp.From q) :
    Obtains (some q) q.stage q.entryPoint (compile fault sp) :=
  fun _ h => ⟨q, rfl, compile_eq h ▸ hfrom, rfl, rfl⟩

/-- A file that a load reads is the source of the request. -/
theorem obtains_file {path : Path} {stage : Stage} {entryPoint : String} {language : Language}
    {f : Src → Except Fault (Spirv Src Path Stage)}
    (hf : ∀ src spirv, f src = .ok spirv → spirv.From ⟨language, src, stage, entryPoint⟩) :
    Obtains (files.request language path stage entryPoint) stage entryPoint (readFileContents files path >>= f) := by
  intro spirv h
  rw [readFileContents] at h
  rw [Files.request]
  cases hc : files.contents (files.absolutePath path) with
  | none =>
    rw [hc] at h
    cases h
  | some src =>
    rw [hc] at h
    exact ⟨_, rfl, hf src spirv h, rfl, rfl⟩

theorem from_words {src : Src} {stage : Stage} {spirv : Spirv Src Path Stage}
    (h : (if files.aligned src then Except.ok (.words src) else .error Fault.alignment) = .ok spirv) :
    spirv.From ⟨.spirv, src, stage, "main"⟩ := by
  split_ifs at h
  rw [← Except.ok.inj h]
  exact ⟨rfl, rfl⟩

theorem from_glsl (src : Src) (stage : Stage) (name : ModuleName Src Path Stage) :
    (Spirv.glsl src stage name).From ⟨.glsl, src, stage, "main"⟩ := rfl

theorem from_hlsl (src : Src) (stage : Stage) (name : ModuleName Src Path Stage) (entryPoint : String) :
    (Spirv.hlsl src stage name entryPoint).From ⟨.hlsl, src, stage, entryPoint⟩ := rfl

theorem stageDescFrom_hit {path : Path} (h : s.stageDescs (.file (files.absolutePath path)) = some d)
    (f : Manager Src Path Stage → Except Fault (ShaderModule Src Path Stage) × Manager Src Path Stage) :
    stageDescFrom files path f s = (.ok d, s) := by
  rw [stageDescFrom, h]

end Obtain

section Outcome
variable [DecidableEq Src] [DecidableEq Path] [DecidableEq Stage] {files : Files Src Path} {fault : Option Fault}
  {s : Manager Src Path Stage} {k : Key Src Path Stage} {q : Request Src Stage} {request : Option (Request Src Stage)}
  {m : ShaderModule Src Path Stage} {d : ShaderStageDesc Src Path Stage}

/-- The tables with one more entry in both. -/
def Manager.insert (s : Manager Src Path Stage) (k : Key Src Path Stage) (m : ShaderModule Src Path Stage)
    (d : ShaderStageDesc Src Path Stage) : Manager Src Path Stage :=
  ⟨Function.update s.modules k (some m), Function.update s.stageDescs k (some d)⟩

def Fresh {α : Type} (s : Manager Src Path Stage) (k : Key Src Path Stage) (request : Option (Request Src Stage))
    (From : α → Request Src Stage → Prop) (r : Except Fault α × Manager Src Path Stage) : Prop :=
  (∃ e, r = (.error e, s)) ∨ ∃ q m d a, request = some q ∧ m.From q ∧ d.From q ∧ From a q ∧
    r = (.ok a, s.insert k m d)

theorem load_hit (h : s.modules k = some m) (stage : Stage) (o : Except Fault (Spirv Src Path Stage))
    (entryPoint : String) : load fault k stage o entryPoint s = (.ok m, s) := by
  simp only [load, h]

theorem load_miss {stage : Stage} {o : Except Fault (Spirv Src Path Stage)} {entryPoint : String}
    (hm : s.modules k = none) (hd : s.stageDescs k = none) (ho : Obtains request stage entryPoint o) :
    Fresh s k request ShaderModule.From (load fault k stage o entryPoint s) := by
  simp only [load, hm]
  cases o with
  | error e => exact Or.inl ⟨e, rfl⟩
  | ok spirv =>
    obtain ⟨q, hq, hfrom, rfl, rfl⟩ := ho spirv rfl
    by_cases hcreate : fault = some .create
    · exact Or.inl ⟨.create, if_pos hcreate⟩
    · have hm : (⟨spirv, q.stage, q.entryPoint⟩ : ShaderModule Src Path Stage).From q := ⟨hfrom, rfl, rfl⟩
      refine Or.inr ⟨q, _, ⟨q.stage, spirv, q.entryPoint, k⟩, _, hq, hm, ⟨hfrom, rfl, rfl⟩, hm,
        (if_neg hcreate).trans ?_⟩
      rw [insertStageDesc, hd]
      rfl

theorem stageDescFrom_miss {path : Path}
    {f : Manager Src Path Stage → Except Fault (ShaderModule Src Path Stage) × Manager Src Path Stage}
    (hd : s.stageDescs (.file (files.absolutePath path)) = none)
    (hf : Fresh s (.file (files.absolutePath path)) request ShaderModule.From (f s)) :
    Fresh s (.file (files.absolutePath path)) request ShaderStageDesc.From (stageDescFrom files path f s) := by
  rw [stageDescFrom, hd]
  rcases hf with ⟨e, he⟩ | ⟨q, m, d, a, hq, hm, hd', -, he⟩
  · rw [he]
    exact Or.inl ⟨e, rfl⟩
  · refine Or.inr ⟨q, m, d, d, hq, hm, hd', hd', ?_⟩
    rw [he]
    simp only [Manager.insert, Function.update_self]

theorem loadFile_miss {path : Path} {stage : Stage} {entryPoint : String} {language : Language}
    {f : Src → Except Fault (Spirv Src Path Stage)} (hm : s.modules (.file (files.absolutePath path)) = none)
    (hd : s.stageDescs (.file (files.absolutePath path)) = none)
    (hf : ∀ src spirv, f src = .ok spirv → spirv.From ⟨language, src, stage, entryPoint⟩) :
    Fresh s (.file (files.absolutePath path)) (files.request language path stage entryPoint) ShaderModule.From
      (load fault (.file (files.absolutePath path)) stage (readFileContents files path >>= f) entryPoint s) :=
  load_miss hm hd (obtains_file hf)

theorem Fresh.answerModule {r : Except Fault (ShaderModule Src Path Stage) × Manager Src Path Stage}
    (h : Fresh s k request ShaderModule.From r) : Fresh s k request (fun a q => Answer.From q a) (answerModule r) := by
  rcases h with ⟨e, rfl⟩ | ⟨q, m, d, a, hq, hm, hd, ha, rfl⟩
  · exact Or.inl ⟨e, rfl⟩
  · exact Or.inr ⟨q, m, d, .module a, hq, hm, hd, ha, rfl⟩

theorem Fresh.answerDesc {r : Except Fault (ShaderStageDesc Src Path Stage) × Manager Src Path Stage}
    (h : Fresh s k request ShaderStageDesc.From r) : Fresh s k request (fun a q => Answer.From q a) (answerDesc r) := by
  rcases h with ⟨e, rfl⟩ | ⟨q, m, d, a, hq, hm, hd, ha, rfl⟩
  · exact Or.inl ⟨e, rfl⟩
  · exact Or.inr ⟨q, m, d, .desc a, hq, hm, hd, ha, rfl⟩

/-- A call whose key is in both tables returns what is stored. -/
theorem step_hit (c : Call Src Path Stage) (hm : s.modules (c.key files) = some m)
    (hd : s.stageDescs (c.key files) = some d) :
    step files fault s c = (.ok (.module m), s) ∨ step files fault s c = (.ok (.desc d), s) := by
  cases c with
  | loadGlsl | loadHlsl | loadFromGlslFile | loadFromHlslFile =>
    exact Or.inl (congrArg answerModule (load_hit hm _ _ _))
  | stageDescFromGlslFile | stageDescFromHlslFile | stageDescFromSpirvFile =>
    exact Or.inr (congrArg answerDesc (stageDescFrom_hit hd _))

/-- A call whose key is in neither table throws, or fills both from its request. -/
theorem step_miss (c : Call Src Path Stage) (hm : s.modules (c.key files) = none)
    (hd : s.stageDescs (c.key files) = none) :
    Fresh s (c.key files) (c.request files) (fun a q => Answer.From q a) (step files fault s c) := by
  cases c with
  | loadGlsl stage code name => exact (load_miss hm hd (obtains_compile (from_glsl _ _ _))).answerModule
  | loadHlsl stage code name entryPoint => exact (load_miss hm hd (obtains_compile (from_hlsl _ _ _ _))).answerModule
  | loadFromGlslFile path stage => exact (loadFile_miss hm hd fun _ _ h => compile_eq h ▸ rfl).answerModule
  | loadFromHlslFile path stage entryPoint => exact (loadFile_miss hm hd fun _ _ h => compile_eq h ▸ rfl).answerModule
  | stageDescFromGlslFile path stage =>
    exact (stageDescFrom_miss hd (loadFile_miss hm hd fun _ _ h => compile_eq h ▸ rfl)).answerDesc
  | stageDescFromHlslFile path stage entryPoint =>
    exact (stageDescFrom_miss hd (loadFile_miss hm hd fun _ _ h => compile_eq h ▸ rfl)).answerDesc
  | stageDescFromSpirvFile path stage =>
    exact (stageDescFrom_miss hd (loadFile_miss hm hd fun _ _ h => from_words h)).answerDesc

end Outcome

section Run
variable [DecidableEq Src] [DecidableEq Path] [DecidableEq Stage] (files : Files Src Path)

/-- What the tables hold under a key: nothing, or what the given call was answered by. -/
def Stored (s : Manager Src Path Stage) (k : Key Src Path Stage) : Option (Call Src Path Stage) → Prop
  | none => s.modules k = none ∧ s.stageDescs k = none
  | some c => ∃ q m d, c.request files = some q ∧ s.modules k = some m ∧ m.From q ∧ s.stageDescs k = some d ∧ d.From q

/-- The first call of a sequence with the given key. -/
def firstOf (k : Key Src Path Stage) (done : List (Call Src Path Stage)) : Option (Call Src Path Stage) :=
  done.find? fun c => c.key files = k

/-- Under every key the tables hold what the first completed call with that key was answered by. -/
def Inv (r : Run Src Path Stage) : Prop := ∀ k, Stored files r.state k (firstOf files k r.done)

variable {files} {s : Manager Src Path Stage} {k : Key Src Path Stage} {c c₀ : Call Src Path Stage}
  {r : Run Src Path Stage} {fault : Option Fault} {done : List (Call Src Path Stage)}

theorem firstOf_append : firstOf files k (done ++ [c]) =
    (firstOf files k done).or (if c.key files = k then some c else none) := by
  rw [firstOf, List.find?_append, firstOf]
  by_cases h : c.key files = k
  · simp [h]
  · simp [h]

theorem key_of_firstOf (h : firstOf files k done = some c) : c.key files = k := by
  simpa using List.find?_some h

/-- One call: what it returns is what the first completed call with its key was answered by, and it keeps the tables. -/
theorem Inv.step (h : Inv files r) (fault : Option Fault) (c : Call Src Path Stage) :
    Inv files (r.next files (fault, c)) ∧ ∀ a, (step files fault r.state c).1 = .ok a →
      ∃ c₀ q, firstOf files (c.key files) (r.next files (fault, c)).done = some c₀ ∧
        c₀.request files = some q ∧ a.From q := by
  have hstored := h (c.key files)
  cases hfirst : firstOf files (c.key files) r.done with
  | some c₀ =>
    rw [hfirst] at hstored
    obtain ⟨q, m, d, hq, hm, hmq, hd, hdq⟩ := hstored
    have hhit : ∃ a, Shader.step files fault r.state c = (.ok a, r.state) ∧ a.From q := by
      rcases step_hit c hm hd with he | he
      · exact ⟨_, he, hmq⟩
      · exact ⟨_, he, hdq⟩
    obtain ⟨a, ha, haq⟩ := hhit
    have hnext : r.next files (fault, c) = ⟨r.state, r.done ++ [c]⟩ := by
      rw [Run.next, ha]
      rfl
    rw [hnext]
    refine ⟨fun k => ?_, fun b hb => ⟨c₀, q, ?_, hq, ?_⟩⟩
    · by_cases hk : c.key files = k
      · subst hk
        rw [firstOf_append, hfirst, Option.some_or]
        exact ⟨q, m, d, hq, hm, hmq, hd, hdq⟩
      · rw [firstOf_append, if_neg hk, Option.or_none]
        exact h k
    · rw [firstOf_append, hfirst, Option.some_or]
    · rw [ha] at hb
      exact Except.ok.inj hb ▸ haq
  | none =>
    rw [hfirst] at hstored
    rcases (step_miss c hstored.1 hstored.2 : Fresh _ (c.key files) _ _ (Shader.step files fault _ c)) with
      ⟨e, he⟩ | ⟨q, m, d, a, hq, hmq, hdq, haq, he⟩
    · have hnext : r.next files (fault, c) = r := by
        rw [Run.next, he]
        rfl
      rw [hnext, he]
      exact ⟨h, fun a ha => by cases ha⟩
    · have hnext : r.next files (fault, c) = ⟨r.state.insert (c.key files) m d, r.done ++ [c]⟩ := by
        rw [Run.next, he]
        rfl
      rw [hnext, he]
      refine ⟨fun k => ?_, fun b hb => ⟨c, q, ?_, hq, Except.ok.inj hb ▸ haq⟩⟩
      · by_cases hk : c.key files = k
        · subst hk
          rw [firstOf_append, hfirst, if_pos rfl, Option.none_or]
          exact ⟨q, m, d, hq, Function.update_self _ _ _, hmq, Function.update_self _ _ _, hdq⟩
        · rw [firstOf_append, if_neg hk, Option.or_none]
          have hk' : k ≠ c.key files := fun h => hk h.symm
          have hmod : (r.state.insert (c.key files) m d).modules k = r.state.modules k := Function.update_of_ne hk' _ _
          have hdesc : (r.state.insert (c.key files) m d).stageDescs k = r.state.stageDescs k :=
            Function.update_of_ne hk' _ _
          have hold := h k
          cases hf : firstOf files k r.done with
          | none =>
            rw [hf] at hold
            exact ⟨hmod.trans hold.1, hdesc.trans hold.2⟩
          | some c₁ =>
            rw [hf] at hold
            obtain ⟨q₁, m₁, d₁, hq₁, hm₁, hmq₁, hd₁, hdq₁⟩ := hold
            exact ⟨q₁, m₁, d₁, hq₁, hmod.trans hm₁, hmq₁, hdesc.trans hd₁, hdq₁⟩
      · rw [firstOf_append, hfirst, if_pos rfl, Option.none_or]

theorem run_append (files : Files Src Path) (calls : List (Option Fault × Call Src Path Stage))
    (c : Option Fault × Call Src Path Stage) : run files (calls ++ [c]) = (run files calls).next files c := by
  rw [run, List.foldl_append]
  rfl

theorem inv_run (files : Files Src Path) (calls : List (Option Fault × Call Src Path Stage)) :
    Inv files (run files calls) := by
  induction calls using List.reverseRecOn with
  | nil => exact fun k => ⟨rfl, rfl⟩
  | append_singleton calls c ih =>
    rw [run_append]
    exact (ih.step c.1 c.2).1

omit [DecidableEq Src] [DecidableEq Path] [DecidableEq Stage] in
theorem request_of_path_eq {path path' : Path} {l : Language} {stage : Stage} {entryPoint : String}
    {q : Request Src Stage} (h : files.request l path stage entryPoint = some q)
    (heq : files.absolutePath path = files.absolutePath path') (l' : Language) (stage' : Stage) (entryPoint' : String) :
    ∃ q', files.request l' path' stage' entryPoint' = some q' ∧ q'.source = q.source := by
  obtain ⟨src, hsrc, rfl⟩ := Option.map_eq_some_iff.mp h
  refine ⟨⟨l', src, stage', entryPoint'⟩, ?_, rfl⟩
  rw [Files.request, ← heq, hsrc]
  rfl

omit [DecidableEq Src] [DecidableEq Path] [DecidableEq Stage] in
/-- Calls with one key read the same source, and calls by source text with one key are for the same stage. -/
theorem request_of_key_eq {q : Request Src Stage} (hk : c₀.key files = c.key files) (hq : c₀.request files = some q) :
    ∃ q', c.request files = some q' ∧ q'.source = q.source ∧ (c.bySource = true → q'.stage = q.stage) := by
  cases c with
  | loadGlsl | loadHlsl =>
    cases c₀ with
    | loadGlsl | loadHlsl =>
      obtain ⟨rfl, rfl⟩ := Key.source.inj hk
      cases hq
      exact ⟨_, rfl, rfl, fun _ => rfl⟩
    | _ => cases hk
  | _ =>
    cases c₀ with
    | loadGlsl | loadHlsl => cases hk
    | _ =>
      obtain ⟨q', hq', hsrc⟩ := request_of_path_eq hq (Key.file.inj hk) _ _ _
      exact ⟨q', hq', hsrc, fun h => by cases h⟩

/-- After every sequence of calls both tables have the same keys, and the last call is answered from what the first
completed call with its key passed in; that is its own source, and for a source its own stage. -/
theorem answered_by_first_call (files : Files Src Path) (calls : List (Option Fault × Call Src Path Stage))
    (fault : Option Fault) (c : Call Src Path Stage) :
    (∀ k, ((run files (calls ++ [(fault, c)])).state.modules k).isSome =
      ((run files (calls ++ [(fault, c)])).state.stageDescs k).isSome) ∧
    ∀ a, (step files fault (run files calls).state c).1 = .ok a → ∃ c₀ q q',
      firstOf files (c.key files) (run files (calls ++ [(fault, c)])).done = some c₀ ∧
      c₀.request files = some q ∧ a.From q ∧
      c.request files = some q' ∧ q'.source = q.source ∧ (c.bySource = true → q'.stage = q.stage) := by
  constructor
  · intro k
    have h := inv_run files (calls ++ [(fault, c)]) k
    cases hf : firstOf files k (run files (calls ++ [(fault, c)])).done with
    | none =>
      rw [hf] at h
      rw [h.1, h.2]
      rfl
    | some c₀ =>
      rw [hf] at h
      obtain ⟨q, m, d, -, hm, -, hd, -⟩ := h
      rw [hm, hd]
      rfl
  · intro a ha
    obtain ⟨c₀, q, hfirst, hq, haq⟩ := ((inv_run files calls).step fault c).2 a ha
    obtain ⟨q', hq', hsrc, hstage⟩ := request_of_key_eq (key_of_firstOf hfirst) hq
    refine ⟨c₀, q, q', ?_, hq, haq, hq', hsrc, hstage⟩
    rw [run_append]
    exact hfirst

/-- One file, read under its own path. -/
def oneFile : Files String String := ⟨id, fun _ => some "code", fun _ => true⟩

/-- A file loaded for two stages, and one source loaded in two languages: the second load returns the first module. -/
theorem not_answered_as_passed :
    (∃ a, (step oneFile none (run oneFile [(none, .loadFromHlslFile "a.hlsl" 1 "vsMain")]).state
        (.loadFromHlslFile "a.hlsl" 16 "psMain")).1 = .ok a ∧
      ¬ a.From ⟨.hlsl, "code", 16, "psMain"⟩) ∧
    ∃ a, (step oneFile none (run oneFile [(none, .loadGlsl 1 "code" "")]).state
        (.loadHlsl 1 "code" "" "main")).1 = .ok a ∧
      ¬ a.From ⟨.hlsl, "code", 1, "main"⟩ := by
  refine ⟨⟨.module ⟨.hlsl "code" 1 (.key (.file "a.hlsl")) "vsMain", 1, "vsMain"⟩, rfl, ?_⟩,
    ⟨.module ⟨.glsl "code" 1 (.key (.source "code" 1)), 1, "main"⟩, rfl, ?_⟩⟩
  · rintro ⟨-, hstage, -⟩
    exact absurd hstage (by decide)
  · rintro ⟨hfrom, -⟩
    exact Language.noConfusion (congrArg Request.language hfrom)

end Run

end Zpc.Shader
