import ColorGraph.Proofs.LowerCase
import ColorGraph.Proofs.NormalizedNames
/-!
Kebab case as a normal form. Main statement: a name in kebab case has no separators and stays as it
is, and that of a name is put together from those of its parts: only where two runs of separators
meet, one of the two hyphens is dropped.
-/

set_option autoImplicit false

namespace ColorGraph.Css

open Text

/-- Characters of a name in kebab case: no separators, and none that lower case would change. -/
def IsKebab (cs : List Char) : Prop :=
  ∀ c ∈ cs, isSeparator c = false ∧ lowerCase c = [c]

def StartsWithSeparator (name : String) : Prop :=
  name.toList.head?.any isSeparator = true

def EndsInSeparator (name : String) : Prop :=
  name.toList.getLast?.any isSeparator = true

instance (name : String) : Decidable (StartsWithSeparator name) :=
  inferInstanceAs (Decidable (_ = true))

instance (name : String) : Decidable (EndsInSeparator name) :=
  inferInstanceAs (Decidable (_ = true))

def written (inRun : Bool) (c : Char) : List Char :=
  if isSeparator c then if inRun then [] else ['-'] else lowerCase c

def runAfter (inRun : Bool) : List Char → Bool
  | [] => inRun
  | c :: cs => runAfter (isSeparator c) cs

variable {inRun : Bool} {cs ds : List Char} {c d : Char} {name s t : String}

theorem kebabChars_cons (inRun : Bool) (c : Char) (cs : List Char) :
    kebabChars inRun (c :: cs) = written inRun c ++ kebabChars (isSeparator c) cs := by
  by_cases hc : isSeparator c = true <;> cases inRun <;> simp [kebabChars, written, hc]

/-! Names in kebab case. -/

theorem isSeparator_of_mem (hc : isSeparator c = false) (h : d ∈ lowerCase c) :
    isSeparator d = false := by
  rcases eq_or_lt_of_mem h with rfl | hd
  · exact hc
  · have hspace : d ≠ ' ' := by rintro rfl; exact absurd hd (by decide)
    have hunderscore : d ≠ '_' := by rintro rfl; exact absurd hd (by decide)
    simp [isSeparator, hspace, hunderscore]

theorem isKebab_written (inRun : Bool) (c : Char) : IsKebab (written inRun c) := by
  intro d hd
  by_cases hc : isSeparator c = true
  · have hdash : d = '-' := by
      cases inRun with
      | true => simp [written, hc] at hd
      | false => simpa [written, hc] using hd
    subst hdash
    decide +kernel
  · rw [written, if_neg hc] at hd
    rw [Bool.not_eq_true] at hc
    exact ⟨isSeparator_of_mem hc hd, lowerCase_of_mem hd⟩

theorem isKebab_kebabChars (inRun : Bool) (cs : List Char) : IsKebab (kebabChars inRun cs) := by
  induction cs generalizing inRun with
  | nil => exact List.forall_mem_nil _
  | cons c cs ih =>
    rw [kebabChars_cons]
    exact List.forall_mem_append.2 ⟨isKebab_written inRun c, ih _⟩

theorem isKebab_kebab (name : String) : IsKebab (kebab name).toList := by
  rw [kebab, String.toList_ofList]
  exact isKebab_kebabChars false name.toList

theorem kebabChars_of_isKebab (h : IsKebab cs) : kebabChars inRun cs = cs := by
  induction cs generalizing inRun with
  | nil => rfl
  | cons c cs ih =>
    obtain ⟨⟨hc, hlower⟩, hcs⟩ := List.forall_mem_cons.1 h
    simp [kebabChars, hc, hlower, ih hcs]

/-- The names in kebab case are those that stay as they are. -/
theorem kebab_eq_self_iff : kebab name = name ↔ IsKebab name.toList := by
  constructor
  · intro h
    exact h ▸ isKebab_kebab name
  · intro h
    rw [kebab, kebabChars_of_isKebab h, String.ofList_toList]

/-! Names put together. -/

theorem kebabChars_append (inRun : Bool) (cs ds : List Char) : kebabChars inRun (cs ++ ds) =
    kebabChars inRun cs ++ kebabChars (runAfter inRun cs) ds := by
  induction cs generalizing inRun with
  | nil => rfl
  | cons c cs ih => simp [kebabChars_cons, runAfter, ih]

theorem runAfter_eq (inRun : Bool) (cs : List Char) :
    runAfter inRun cs = (cs.getLast?.map isSeparator).getD inRun := by
  induction cs generalizing inRun with
  | nil => rfl
  | cons c cs ih => simp [runAfter, ih, List.getLast?_cons, Option.getD_map]

theorem runAfter_iff : runAfter false name.toList = true ↔ EndsInSeparator name := by
  rw [runAfter_eq, EndsInSeparator]
  cases name.toList.getLast? <;> simp

theorem kebabChars_of_runAfter (h : runAfter inRun cs = true) :
    inRun = true ∧ kebabChars inRun cs = [] ∨ ∃ ds, kebabChars inRun cs = ds ++ ['-'] := by
  induction cs generalizing inRun with
  | nil => exact .inl ⟨h, rfl⟩
  | cons c cs ih =>
    rw [kebabChars_cons]
    rcases ih h with ⟨hc, hcs⟩ | ⟨ds, hds⟩
    · rw [hcs, List.append_nil]
      cases inRun with
      | true => exact .inl ⟨rfl, by simp [written, hc]⟩
      | false => exact .inr ⟨[], by simp [written, hc]⟩
    · exact .inr ⟨written inRun c ++ ds, by rw [hds, List.append_assoc]⟩

theorem kebabChars_of_ended (h : ¬ ds.head?.any isSeparator = true) :
    kebabChars inRun ds = kebabChars false ds := by
  cases ds with
  | nil => rfl
  | cons c ds =>
    have hc : isSeparator c = false := by simpa using h
    simp [kebabChars, hc]

theorem kebabChars_of_begun (h : ds.head?.any isSeparator = true) :
    kebabChars false ds = '-' :: kebabChars true ds := by
  cases ds with
  | nil => simp at h
  | cons c ds =>
    have hc : isSeparator c = true := by simpa using h
    simp [kebabChars, hc]

theorem kebab_append (s t : String) :
    kebab (s ++ t) = kebab s ++ String.ofList (kebabChars (runAfter false s.toList) t.toList) := by
  rw [kebab, String.toList_append, kebabChars_append, String.ofList_append, kebab]

theorem kebab_append_of_apart (h : ¬ (EndsInSeparator s ∧ StartsWithSeparator t)) :
    kebab (s ++ t) = kebab s ++ kebab t := by
  rw [kebab_append]
  by_cases hs : EndsInSeparator s
  · rw [kebabChars_of_ended fun ht => h ⟨hs, ht⟩, ← kebab]
  · rw [← runAfter_iff, Bool.not_eq_true] at hs
    rw [hs, ← kebab]

/-- Where two runs of separators meet, one hyphen stands for both. -/
theorem kebab_append_of_meet (hs : EndsInSeparator s) (ht : StartsWithSeparator t) :
    ∃ before after, kebab s = before ++ "-" ∧ kebab t = "-" ++ after ∧
      kebab (s ++ t) = before ++ "-" ++ after := by
  have hopen := runAfter_iff.2 hs
  obtain ⟨ds, hds⟩ : ∃ ds, kebabChars false s.toList = ds ++ ['-'] := by
    simpa using kebabChars_of_runAfter hopen
  have hkebab : kebab s = String.ofList ds ++ "-" := by
    rw [kebab, hds, String.ofList_append]
  refine ⟨String.ofList ds, String.ofList (kebabChars true t.toList), hkebab, ?_, ?_⟩
  · rw [kebab, kebabChars_of_begun ht, ← List.singleton_append, String.ofList_append]
  · rw [kebab_append, hkebab, hopen]

/-- Kebab case is a normal form, and that of a name is put together from those of its parts. -/
theorem kebab_isNormalForm (s t : String) :
    (' ' ∉ (kebab s).toList ∧ '_' ∉ (kebab s).toList) ∧
      (kebab s = "" ↔ s = "") ∧
      kebab (kebab s) = kebab s ∧
      (¬ (EndsInSeparator s ∧ StartsWithSeparator t) → kebab (s ++ t) = kebab s ++ kebab t) ∧
      (EndsInSeparator s ∧ StartsWithSeparator t →
        ∃ before after, kebab s = before ++ "-" ∧ kebab t = "-" ++ after ∧
          kebab (s ++ t) = before ++ "-" ++ after) := by
  have hkebab := isKebab_kebab s
  refine ⟨⟨fun h => ?_, fun h => ?_⟩, kebab_eq_empty_iff, kebab_eq_self_iff.2 hkebab,
    kebab_append_of_apart, fun h => kebab_append_of_meet h.1 h.2⟩
  · exact absurd (hkebab _ h).1 (by decide)
  · exact absurd (hkebab _ h).1 (by decide)

theorem kebab_isNormalForm_seams :
    EndsInSeparator "Brand _" ∧ StartsWithSeparator "_ \u0130d" ∧
      (∃ before after, kebab "Brand _" = before ++ "-" ∧ kebab "_ \u0130d" = "-" ++ after ∧
        kebab ("Brand _" ++ "_ \u0130d") = before ++ "-" ++ after) ∧
      kebab ("Brand _" ++ "_ \u0130d") = "brand-i\u0307d" ∧
      ¬ EndsInSeparator "Brand-" ∧
      kebab ("Brand-" ++ "_ \u0130d") = kebab "Brand-" ++ kebab "_ \u0130d" := by
  have hends : EndsInSeparator "Brand _" := by decide +kernel
  have hstarts : StartsWithSeparator "_ \u0130d" := by decide +kernel
  have hdash : ¬ EndsInSeparator "Brand-" := by decide +kernel
  obtain ⟨_, _, _, _, hmeet⟩ := kebab_isNormalForm "Brand _" "_ \u0130d"
  obtain ⟨_, _, _, hapart, _⟩ := kebab_isNormalForm "Brand-" "_ \u0130d"
  exact ⟨hends, hstarts, hmeet ⟨hends, hstarts⟩, by decide +kernel, hdash,
    hapart fun h => hdash h.1⟩

end ColorGraph.Css
