import Mathlib.Data.List.Basic

/-!
# Executions of a labelled step function

A system is a partial function `step : σ → ι → Option σ`. Every choice of the environment
(scheduling, allocation failures, replies) is part of the label, so an execution is a list of
labels and stays computable. `Along` quantifies over the transitions an execution takes; the
rules below turn facts about one transition into facts about whole executions.
-/
namespace LiberalOS.Foundation

variable {σ ι : Type*} {step : σ → ι → Option σ}

/-- Take the labels in order, stopping with `none` at the first one that is not enabled. -/
def exec (step : σ → ι → Option σ) : σ → List ι → Option σ
  | s, [] => some s
  | s, l :: ls => (step s l).bind fun t => exec step t ls

/-- Every transition `s --l--> t` taken by the execution of the labels satisfies `Q s l t`. -/
def Along (step : σ → ι → Option σ) (Q : σ → ι → σ → Prop) : σ → List ι → Prop
  | _, [] => True
  | s, l :: ls => ∀ t, step s l = some t → Q s l t ∧ Along step Q t ls

@[simp] theorem exec_nil (s : σ) : exec step s [] = some s := rfl

@[simp] theorem exec_cons (s : σ) (l : ι) (ls : List ι) :
    exec step s (l :: ls) = (step s l).bind fun t => exec step t ls := rfl

theorem exec_singleton (s : σ) (l : ι) : exec step s [l] = step s l := by
  cases h : step s l <;> simp [h]

theorem exec_pair {s u t : σ} {l m : ι} (h : step s l = some u) (h' : step u m = some t) :
    exec step s [l, m] = some t := by
  rw [exec_cons, h, Option.bind_some, exec_singleton, h']

@[simp] theorem along_nil {Q : σ → ι → σ → Prop} (s : σ) : Along step Q s [] := trivial

@[simp] theorem along_cons {Q : σ → ι → σ → Prop} (s : σ) (l : ι) (ls : List ι) :
    Along step Q s (l :: ls) ↔ ∀ t, step s l = some t → Q s l t ∧ Along step Q t ls := Iff.rfl

/-- The test of a decidable property along an execution, one transition after the other. -/
def checkAlong (step : σ → ι → Option σ) (Q : σ → ι → σ → Prop) [∀ s l t, Decidable (Q s l t)] :
    σ → List ι → Bool
  | _, [] => true
  | s, l :: ls =>
    match step s l with
    | none => true
    | some t => if Q s l t then checkAlong step Q t ls else false

theorem checkAlong_iff {Q : σ → ι → σ → Prop} [∀ s l t, Decidable (Q s l t)] {s : σ}
    {ls : List ι} : checkAlong step Q s ls = true ↔ Along step Q s ls := by
  induction ls generalizing s with
  | nil => simp [checkAlong]
  | cons l ls ih =>
    rw [checkAlong, along_cons]
    cases hs : step s l with
    | none => simp
    | some t => by_cases hq : Q s l t <;> simp [hq, ih]

/-- A decidable property of transitions can be evaluated along a concrete execution. -/
instance decidableAlong {Q : σ → ι → σ → Prop} [∀ s l t, Decidable (Q s l t)] (s : σ)
    (ls : List ι) : Decidable (Along step Q s ls) :=
  decidable_of_iff (checkAlong step Q s ls = true) checkAlong_iff

/-- The reading of `Along` by positions: the transition taken after any proper prefix. -/
theorem along_iff_forall {Q : σ → ι → σ → Prop} {s : σ} {ls : List ι} :
    Along step Q s ls ↔ ∀ pre l post u t, ls = pre ++ l :: post →
      exec step s pre = some u → step u l = some t → Q u l t := by
  induction ls generalizing s with
  | nil => simp
  | cons l ls ih =>
    constructor
    · intro h pre m post u t hls hpre hstep
      cases pre with
      | nil =>
        obtain ⟨rfl, rfl⟩ : l = m ∧ ls = post := by simpa using hls
        obtain rfl : s = u := by simpa using hpre
        exact (h t hstep).1
      | cons k pre =>
        obtain ⟨rfl, rfl⟩ : l = k ∧ ls = pre ++ m :: post := by simpa using hls
        obtain ⟨v, hv, hrest⟩ := Option.bind_eq_some_iff.mp hpre
        exact (ih.mp (h v hv).2) pre m post u t rfl hrest hstep
    · intro h t ht
      refine ⟨h [] l ls s t rfl rfl ht, ih.mpr fun pre m post u v hls hpre hstep => ?_⟩
      exact h (l :: pre) m post u v (by simp [hls]) (by simp [ht, hpre]) hstep

theorem exec_append (s : σ) (ls ms : List ι) :
    exec step s (ls ++ ms) = (exec step s ls).bind fun t => exec step t ms := by
  induction ls generalizing s with
  | nil => rfl
  | cons l ls ih =>
    simp only [List.cons_append, exec_cons, ih]
    cases step s l <;> rfl

theorem along_append {Q : σ → ι → σ → Prop} {s : σ} {ls ms : List ι} :
    Along step Q s (ls ++ ms) ↔
      Along step Q s ls ∧ ∀ t, exec step s ls = some t → Along step Q t ms := by
  induction ls generalizing s with
  | nil => simp
  | cons l ls ih =>
    constructor
    · intro h
      refine ⟨fun t ht => ⟨(h t ht).1, (ih.mp (h t ht).2).1⟩, fun u hu => ?_⟩
      obtain ⟨t, ht, hrest⟩ := Option.bind_eq_some_iff.mp hu
      exact (ih.mp (h t ht).2).2 u hrest
    · rintro ⟨hls, hms⟩ t ht
      refine ⟨(hls t ht).1, ih.mpr ⟨(hls t ht).2, fun u hu => hms u ?_⟩⟩
      simp [ht, hu]

/-- What every transition preserves holds in every state an execution reaches. -/
theorem exec_invariant {I : σ → Prop} (hstep : ∀ s l t, I s → step s l = some t → I t)
    {s t : σ} {ls : List ι} (hs : I s) (h : exec step s ls = some t) : I t := by
  induction ls generalizing s with
  | nil => exact Option.some.inj h ▸ hs
  | cons l ls ih =>
    obtain ⟨u, hu, hrest⟩ := Option.bind_eq_some_iff.mp h
    exact ih (hstep s l u hs hu) hrest

/-- An invariant that every condition-meeting transition by a label of the execution preserves, and
that makes such a transition satisfy `Q`, yields `Q` along the whole execution. -/
theorem Along.of_invariant_mem {C Q : σ → ι → σ → Prop} (I : σ → Prop) {ls : List ι}
    (hstep : ∀ s l t, l ∈ ls → I s → step s l = some t → C s l t → Q s l t ∧ I t)
    {s : σ} (hs : I s) (h : Along step C s ls) : Along step Q s ls := by
  induction ls generalizing s with
  | nil => trivial
  | cons l ls ih =>
    intro t ht
    obtain ⟨hc, hrest⟩ := h t ht
    obtain ⟨hq, hi⟩ := hstep s l t List.mem_cons_self hs ht hc
    exact ⟨hq, ih (fun s m u hm => hstep s m u (List.mem_cons_of_mem _ hm)) hi hrest⟩

/-- The same for an invariant that every condition-meeting transition preserves. -/
theorem Along.of_invariant {C Q : σ → ι → σ → Prop} (I : σ → Prop)
    (hstep : ∀ s l t, I s → step s l = some t → C s l t → Q s l t ∧ I t)
    {s : σ} {ls : List ι} (hs : I s) (h : Along step C s ls) : Along step Q s ls :=
  .of_invariant_mem I (fun s l t _ => hstep s l t) hs h

/-- An invariant that every such transition preserves holds at the end. -/
theorem exec_invariant_of_along {C : σ → ι → σ → Prop} {I : σ → Prop} {ls : List ι}
    (hstep : ∀ s l t, l ∈ ls → I s → step s l = some t → C s l t → I t) {s t : σ} (hs : I s)
    (h : exec step s ls = some t) (hc : Along step C s ls) : I t := by
  induction ls generalizing s with
  | nil => exact Option.some.inj h ▸ hs
  | cons l ls ih =>
    obtain ⟨u, hu, hrest⟩ := Option.bind_eq_some_iff.mp h
    exact ih (fun s m v hm => hstep s m v (List.mem_cons_of_mem _ hm))
      (hstep s l u List.mem_cons_self hs hu (hc u hu).1) hrest (hc u hu).2

theorem along_true (s : σ) (ls : List ι) : Along step (fun _ _ _ => True) s ls := by
  induction ls generalizing s with
  | nil => trivial
  | cons l ls ih => exact fun t _ => ⟨trivial, ih t⟩

/-- When, in invariant states and for transitions the environment allows (`A`), a transition
satisfies `Q` exactly if it meets `C`, an execution satisfies `Q` throughout exactly if it meets
`C` throughout. -/
theorem along_iff_of_invariant {A C Q : σ → ι → σ → Prop} (I : σ → Prop)
    (hiff : ∀ s l t, I s → step s l = some t → A s l t → (Q s l t ↔ C s l t))
    (hpres : ∀ s l t, I s → step s l = some t → A s l t → C s l t → I t)
    {s : σ} {ls : List ι} (hs : I s) (ha : Along step A s ls) :
    Along step Q s ls ↔ Along step C s ls := by
  induction ls generalizing s with
  | nil => simp
  | cons l ls ih =>
    constructor
    · intro h t ht
      obtain ⟨hallowed, harest⟩ := ha t ht
      obtain ⟨hq, hrest⟩ := h t ht
      have hc := (hiff s l t hs ht hallowed).mp hq
      exact ⟨hc, (ih (hpres s l t hs ht hallowed hc) harest).mp hrest⟩
    · intro h t ht
      obtain ⟨hallowed, harest⟩ := ha t ht
      obtain ⟨hc, hrest⟩ := h t ht
      exact ⟨(hiff s l t hs ht hallowed).mpr hc,
        (ih (hpres s l t hs ht hallowed hc) harest).mpr hrest⟩

theorem Along.mono {C Q : σ → ι → σ → Prop} (hcq : ∀ s l t, C s l t → Q s l t)
    {s : σ} {ls : List ι} (h : Along step C s ls) : Along step Q s ls :=
  h.of_invariant (fun _ => True) (fun s l t _ _ hc => ⟨hcq s l t hc, trivial⟩) trivial

theorem Along.and {C Q : σ → ι → σ → Prop} {s : σ} {ls : List ι}
    (hc : Along step C s ls) (hq : Along step Q s ls) :
    Along step (fun s l t => C s l t ∧ Q s l t) s ls := by
  induction ls generalizing s with
  | nil => trivial
  | cons l ls ih =>
    intro t ht
    exact ⟨⟨(hc t ht).1, (hq t ht).1⟩, ih (hc t ht).2 (hq t ht).2⟩

/-! ## Reaching a state -/

/-- Some execution leads from `s` to `t`, and its transitions satisfy `Q`. -/
def Reaches (step : σ → ι → Option σ) (Q : σ → ι → σ → Prop) (s t : σ) : Prop :=
  ∃ ls, exec step s ls = some t ∧ Along step Q s ls

theorem Reaches.refl {Q : σ → ι → σ → Prop} (s : σ) : Reaches step Q s s := ⟨[], rfl, trivial⟩

theorem Reaches.head {Q : σ → ι → σ → Prop} {s u t : σ} {l : ι} (hstep : step s l = some u)
    (hq : Q s l u) (h : Reaches step Q u t) : Reaches step Q s t := by
  obtain ⟨ls, hexec, halong⟩ := h
  refine ⟨l :: ls, by simp [hstep, hexec], fun v hv => ?_⟩
  obtain rfl := Option.some.inj (hstep.symm.trans hv)
  exact ⟨hq, halong⟩

theorem Reaches.trans {Q : σ → ι → σ → Prop} {s u t : σ} (h : Reaches step Q s u)
    (h' : Reaches step Q u t) : Reaches step Q s t := by
  obtain ⟨ls, hexec, halong⟩ := h
  induction ls generalizing s with
  | nil => exact Option.some.inj hexec ▸ h'
  | cons l ls ih =>
    obtain ⟨v, hv, hrest⟩ := Option.bind_eq_some_iff.mp hexec
    exact .head hv (halong v hv).1 (ih hrest (halong v hv).2)

end LiberalOS.Foundation
