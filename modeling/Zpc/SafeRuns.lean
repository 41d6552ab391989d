import Zpc.Interleaving

/-!
# Runs that never block

Programs whose every action has an effect, end in every order of the threads, and leave a memory with a given property.
-/
namespace Interleaving
variable {Mem Frame Choice : Type*} {code : Code Mem Frame Choice} {c₀ c c' : Config Mem Frame} {f : Frame} {x : Choice}
  {P Q : Mem → Prop}

/-- Every frame on top of a thread has an effect. -/
def Acts (code : Code Mem Frame Choice) (c : Config Mem Frame) : Prop :=
  ∀ f k, (f :: k) ∈ c.threads → ∃ x, (code c.mem f x).isSome

/-- There is no infinite run. -/
def Ends (code : Code Mem Frame Choice) : Config Mem Frame → Prop := Acc fun c' c => ∃ f x, Step code c f x c'

/-- What holds after every run, none of which blocks. -/
structure Always (code : Code Mem Frame Choice) (c₀ : Config Mem Frame) (P : Mem → Prop) : Prop where
  acts : ∀ c, Reaches code free c₀ c → Acts code c
  ends : Ends code c₀
  result : ∀ c, Reaches code free c₀ c → c.frames = [] → P c.mem

theorem Always.mono (h : Always code c₀ P) (hPQ : ∀ c, Reaches code free c₀ c → c.frames = [] → P c.mem → Q c.mem) :
    Always code c₀ Q where
  acts := h.acts
  ends := h.ends
  result c hr hf := hPQ c hr hf (h.result c hr hf)

/-- An action whose new frames weigh less than its own lowers the weight of all frames. -/
theorem Step.weight_lt {weight : Frame → ℕ} (h : Step code c f x c')
    (hw : ∀ {m f x m' fs}, code m f x = some (m', fs) → (fs.map weight).sum < weight f) :
    c'.total weight < c.total weight := by
  obtain ⟨fs, r, hlt, hc, hc'⟩ := h.measure (R := fun _ f _ fs => (fs.map weight).sum < weight f) hw weight
  omega

theorem ends_of_weight {weight : Frame → ℕ}
    (hw : ∀ {m f x m' fs}, code m f x = some (m', fs) → (fs.map weight).sum < weight f) (c : Config Mem Frame) :
    Ends code c := by
  refine Subrelation.accessible ?_ ((measure fun c : Config Mem Frame => c.total weight).wf.apply c)
  rintro c' c ⟨f, x, hs⟩
  exact hs.weight_lt hw

/-- An invariant under which all frames act, and a weight that every action lowers. -/
theorem always_of_invariant (Inv : Config Mem Frame → Prop) (weight : Frame → ℕ) (h₀ : Inv c₀)
    (hw : ∀ {m f x m' fs}, code m f x = some (m', fs) → (fs.map weight).sum < weight f)
    (hacts : ∀ c, Inv c → ∀ f ∈ c.frames, ∃ x, (code c.mem f x).isSome)
    (hstep : ∀ c f x c', Inv c → Step code c f x c' → Inv c') (hend : ∀ c, Inv c → c.frames = [] → P c.mem) :
    Always code c₀ P := by
  have hinv : ∀ c, Reaches code free c₀ c → Inv c := by
    intro c hr
    induction hr with
    | refl => exact h₀
    | step _ _ hs ih => exact hstep _ _ _ _ ih hs
  refine ⟨fun c hr f k hk => ?_, ends_of_weight hw c₀, fun c hr => hend c (hinv c hr)⟩
  exact hacts c (hinv c hr) f (List.mem_flatten.mpr ⟨f :: k, hk, List.mem_cons_self⟩)

section Effect
variable {m : Mem} {fs : List Frame}

/-- An action whose effect is known. -/
theorem Step.effect (hs : Step code c f x c') (hcode : code c.mem f x = some (m, fs)) :
    c'.mem = m ∧ (∀ g ∈ fs, g ∈ c'.frames) ∧ ∀ g ∈ c'.frames, g ∈ fs ∨ g ∈ c.frames := by
  obtain ⟨fs', he⟩ := hs.runs_code
  obtain ⟨hmem, rfl⟩ := Prod.mk.inj (Option.some.inj (he.symm.trans hcode))
  exact ⟨hmem, fun g hg => hs.mem_of_new he hg, fun g hg => (hs.new_or_old he hg).imp_right Beside.mem⟩

theorem Step.total_of_code {A : Type*} [AddCommMonoid A] (hs : Step code c f x c')
    (hcode : code c.mem f x = some (m, fs)) (g : Frame → A) :
    ∃ r, c.total g = g f + r ∧ c'.total g = (fs.map g).sum + r := by
  obtain ⟨fs', he, hmeasure⟩ := hs.total
  obtain ⟨-, rfl⟩ := Prod.mk.inj (Option.some.inj (he.symm.trans hcode))
  exact hmeasure g

end Effect

/-- A configuration that acts and has frames takes a step. -/
theorem Acts.step (h : Acts code c) (hf : c.frames ≠ []) : ∃ f x c', Step code c f x c' := by
  by_contra hq
  have hq : Quiescent code c := fun f x c' hs => hq ⟨f, x, c', hs⟩
  refine hf (hq.returned_of_acts fun f k hk hb => ?_)
  obtain ⟨x, hx⟩ := h f k hk
  rw [hb x] at hx
  cases hx

/-- The first new frame of an action runs next in its thread. -/
theorem Step.on_top (h : Step code c f x c') {g : Frame} {gs : List Frame}
    (he : code c.mem f x = some (c'.mem, g :: gs)) : ∃ k, (g :: k) ∈ c'.threads := by
  obtain ⟨before, after, he'⟩ := h
  rename_i m m' fs k
  obtain ⟨-, rfl⟩ := Prod.mk.inj (Option.some.inj (he'.symm.trans he))
  exact ⟨gs ++ k, List.mem_append_right _ List.mem_cons_self⟩

theorem Always.tail (h : Always code c₀ P) (hs : Step code c₀ f x c) : Always code c P where
  acts c' hr := h.acts c' (Reaches.trans (.step .refl trivial hs) hr)
  ends := h.ends.inv ⟨f, x, hs⟩
  result c' hr := h.result c' (Reaches.trans (.step .refl trivial hs) hr)

/-- Some run gets to its end. -/
theorem Always.completes (h : Always code c₀ P) : ∃ c, Reaches code free c₀ c ∧ c.frames = [] ∧ P c.mem := by
  have hends := h.ends
  induction hends with
  | intro c _ ih =>
    by_cases hf : c.frames = []
    · exact ⟨c, .refl, hf, h.result c .refl hf⟩
    · obtain ⟨f, x, c', hs⟩ := (h.acts c .refl).step hf
      obtain ⟨c'', hr, hend⟩ := ih c' ⟨f, x, hs⟩ (h.tail hs)
      exact ⟨c'', Reaches.trans (.step .refl trivial hs) hr, hend⟩

end Interleaving
