import Mathlib.Data.List.Forall2
import SlotScheduling.Journal

/-!
# Loops that can fail

What a loop over a list keeps when it ends well follows from what one round
keeps.  `foldlM_induction` carries an invariant through the rounds;
`foldlM_forall` also collects what each round adds, as long as later rounds do
not take it back.
-/

namespace SlotScheduling

namespace Checked

variable {α β : Type}

@[simp] theorem pure_eq_ok {value value' : α} :
    (pure value : Checked α) = .ok value' ↔ value' = value := by
  simp [pure, Except.pure, eq_comm]

@[simp] theorem ok_bind (value : α) (next : α → Checked β) :
    ((.ok value : Checked α) >>= next) = next value :=
  rfl

@[simp] theorem map_eq_ok {f : α → β} {work : Checked α} {value : β} :
    f <$> work = .ok value ↔ ∃ inner, work = .ok inner ∧ value = f inner := by
  cases work <;> simp [Functor.map, Except.map, eq_comm]

theorem foldlM_induction {P : β → Prop} {list : List α} {round : β → α → Checked β}
    (hround : ∀ a ∈ list, ∀ b b', P b → round b a = .ok b' → P b')
    {first last : β} (h : P first) (hrun : list.foldlM round first = .ok last) :
    P last := by
  induction list generalizing first with
  | nil =>
      simp only [List.foldlM_nil, pure_eq_ok] at hrun
      exact hrun ▸ h
  | cons a rest ih =>
      rw [List.foldlM_cons] at hrun
      obtain ⟨next, hnext, hrun⟩ := bind_eq_ok.mp hrun
      exact ih (fun a' ha' => hround a' (List.mem_cons_of_mem a ha'))
        (hround a List.mem_cons_self first next h hnext) hrun

/-- Each round adds something that later rounds keep, so that in the end all of
it is there. -/
theorem foldlM_forall {P : β → Prop} {Q : α → β → Prop} {list : List α}
    {round : β → α → Checked β}
    (hround : ∀ a ∈ list, ∀ b b', P b → round b a = .ok b' →
      P b' ∧ Q a b' ∧ ∀ a', Q a' b → Q a' b')
    {first last : β} (h : P first) (hrun : list.foldlM round first = .ok last) :
    P last ∧ ∀ a ∈ list, Q a last := by
  suffices hstrong : P last ∧ (∀ a, Q a first → Q a last) ∧ ∀ a ∈ list, Q a last from
    ⟨hstrong.1, hstrong.2.2⟩
  induction list generalizing first with
  | nil =>
      simp only [List.foldlM_nil, pure_eq_ok] at hrun
      subst hrun
      exact ⟨h, fun _ h => h, by simp⟩
  | cons a rest ih =>
      rw [List.foldlM_cons] at hrun
      obtain ⟨next, hnext, hrun⟩ := bind_eq_ok.mp hrun
      obtain ⟨hP, hQ, hkeep⟩ := hround a List.mem_cons_self first next h hnext
      obtain ⟨hlast, hkept, hrest⟩ :=
        ih (fun a' ha' => hround a' (List.mem_cons_of_mem a ha')) hP hrun
      refine ⟨hlast, fun a' ha' => hkept a' (hkeep a' ha'), ?_⟩
      intro a' ha'
      rcases List.mem_cons.mp ha' with rfl | ha'
      · exact hkept a' hQ
      · exact hrest a' ha'

theorem exists_punit_eq_ok {work : Checked PUnit} : (∃ done, work = .ok done) ↔ work = .ok ⟨⟩ :=
  ⟨fun ⟨_, h⟩ => h, fun h => ⟨_, h⟩⟩

/-- Checks are passed together if each of them is. -/
theorem forM_eq_ok {list : List α} {work : α → Checked PUnit} :
    list.forM work = .ok ⟨⟩ ↔ ∀ item ∈ list, work item = .ok ⟨⟩ := by
  induction list with
  | nil => exact ⟨fun _ _ hmem => absurd hmem List.not_mem_nil, fun _ => rfl⟩
  | cons item rest ih =>
      show (work item >>= fun _ => rest.forM work) = _ ↔ _
      simp only [Checked.bind_eq_ok, ih, List.forall_mem_cons]
      exact ⟨fun ⟨_, hfirst, hrest⟩ => ⟨hfirst, hrest⟩, fun ⟨hfirst, hrest⟩ => ⟨_, hfirst, hrest⟩⟩

/-- Work in two steps ends well if neither fails on what the first one yields. -/
theorem exists_bind {P : α → Prop} {Q : β → Prop} {work : Checked α} {next : α → Checked β}
    (hwork : ∃ a, work = .ok a ∧ P a) (hnext : ∀ a, P a → ∃ b, next a = .ok b ∧ Q b) :
    ∃ b, (work >>= next) = .ok b ∧ Q b := by
  obtain ⟨a, ha, hP⟩ := hwork
  obtain ⟨b, hb, hQ⟩ := hnext a hP
  exact ⟨b, by rw [ha, ok_bind, hb], hQ⟩

/-- A loop ends well if no round fails on what the rounds before it keep. -/
theorem exists_foldlM {P : β → Prop} {list : List α} {round : β → α → Checked β}
    (hround : ∀ a ∈ list, ∀ b, P b → ∃ b', round b a = .ok b' ∧ P b') {first : β} (h : P first) :
    ∃ last, list.foldlM round first = .ok last ∧ P last := by
  induction list generalizing first with
  | nil => exact ⟨first, rfl, h⟩
  | cons a rest ih =>
      obtain ⟨next, hnext, hkept⟩ := hround a List.mem_cons_self first h
      obtain ⟨last, hlast, hend⟩ := ih (fun a' ha' => hround a' (List.mem_cons_of_mem a ha')) hkept
      exact ⟨last, by rw [List.foldlM_cons, hnext]; exact hlast, hend⟩

theorem mapM_eq_ok {list : List α} {f : α → Checked β} {results : List β}
    (h : list.mapM f = .ok results) :
    List.Forall₂ (fun a b => f a = .ok b) list results := by
  induction list generalizing results with
  | nil =>
      simp only [List.mapM_nil, pure_eq_ok] at h
      exact h ▸ .nil
  | cons a rest ih =>
      rw [List.mapM_cons] at h
      obtain ⟨b, hb, h⟩ := bind_eq_ok.mp h
      obtain ⟨bs, hbs, h⟩ := bind_eq_ok.mp h
      obtain rfl := pure_eq_ok.mp h
      exact .cons hb (ih hbs)

theorem exists_mapM_eq_ok {list : List α} {f : α → Checked β}
    (h : ∀ a ∈ list, ∃ b, f a = .ok b) : ∃ results, list.mapM f = .ok results := by
  induction list with
  | nil => exact ⟨[], rfl⟩
  | cons a rest ih =>
      obtain ⟨b, hb⟩ := h a List.mem_cons_self
      obtain ⟨bs, hbs⟩ := ih fun a' ha' => h a' (List.mem_cons_of_mem a ha')
      exact ⟨b :: bs, by rw [List.mapM_cons, hb, hbs]; rfl⟩

theorem mapM_eq_error {list : List α} {f : α → Checked β} {failure : Failure}
    (h : list.mapM f = .error failure) : ∃ a ∈ list, f a = .error failure := by
  induction list with
  | nil => cases h
  | cons a rest ih =>
      rw [List.mapM_cons] at h
      cases hfirst : f a with
      | error failure' =>
          rw [hfirst] at h
          cases h
          exact ⟨a, List.mem_cons_self, hfirst⟩
      | ok b =>
          rw [hfirst] at h
          cases hrest : rest.mapM f with
          | error failure' =>
              simp only [hrest, bind, Except.bind] at h
              cases h
              obtain ⟨a', hmem, ha'⟩ := ih hrest
              exact ⟨a', List.mem_cons_of_mem a hmem, ha'⟩
          | ok bs =>
              simp [hrest, bind, Except.bind, pure, Except.pure] at h

theorem foldlM_eq_error {list : List α} {round : β → α → Checked β} {first : β}
    {failure : Failure} (h : list.foldlM round first = .error failure) :
    ∃ value, ∃ item ∈ list, round value item = .error failure := by
  induction list generalizing first with
  | nil => cases h
  | cons item rest ih =>
      rw [List.foldlM_cons] at h
      cases hfirst : round first item with
      | error failure' =>
          rw [hfirst] at h
          cases h
          exact ⟨first, item, List.mem_cons_self, hfirst⟩
      | ok next =>
          rw [hfirst] at h
          obtain ⟨value, other, hmem, hround⟩ := ih h
          exact ⟨value, other, List.mem_cons_of_mem item hmem, hround⟩

theorem filterMapM_eq_ok {list : List α} {f : α → Checked (Option β)} {results : List β}
    (h : list.filterMapM f = .ok results) :
    ∃ found : List (Option β), List.Forall₂ (fun a b => f a = .ok b) list found ∧
      results = found.filterMap id := by
  induction list generalizing results with
  | nil =>
      rw [List.filterMapM_nil, pure_eq_ok] at h
      exact ⟨[], .nil, h⟩
  | cons a rest ih =>
      rw [List.filterMapM_cons] at h
      obtain ⟨b, hb, h⟩ := bind_eq_ok.mp h
      cases b with
      | none =>
          obtain ⟨found, hfound, hresults⟩ := ih h
          exact ⟨none :: found, .cons hb hfound, hresults⟩
      | some value =>
          obtain ⟨tail, htail, h⟩ := bind_eq_ok.mp h
          obtain rfl := pure_eq_ok.mp h
          obtain ⟨found, hfound, rfl⟩ := ih htail
          exact ⟨some value :: found, .cons hb hfound, rfl⟩

theorem exists_of_mem_filterMapM {list : List α} {f : α → Checked (Option β)} {results : List β}
    (h : list.filterMapM f = .ok results) {b : β} (hb : b ∈ results) :
    ∃ a ∈ list, f a = .ok (some b) := by
  obtain ⟨found, hfound, rfl⟩ := filterMapM_eq_ok h
  have hmem : some b ∈ found := by simpa using hb
  obtain ⟨index, hlt, hget⟩ := List.mem_iff_getElem.mp hmem
  have hlt' : index < list.length := hfound.length_eq ▸ hlt
  have hround := hfound.get hlt' hlt
  rw [List.get_eq_getElem, List.get_eq_getElem, hget] at hround
  exact ⟨list[index], List.getElem_mem hlt', hround⟩

theorem exists_of_mem_mapM {list : List α} {f : α → Checked β} {results : List β}
    (h : list.mapM f = .ok results) {b : β} (hb : b ∈ results) :
    ∃ a ∈ list, f a = .ok b := by
  have hall := mapM_eq_ok h
  clear h
  induction hall with
  | nil => exact absurd hb List.not_mem_nil
  | @cons a b' rest bs hfirst _ ih =>
      rcases List.mem_cons.mp hb with rfl | hb
      · exact ⟨a, List.mem_cons_self, hfirst⟩
      · obtain ⟨a', hmem, ha'⟩ := ih hb
        exact ⟨a', List.mem_cons_of_mem a hmem, ha'⟩

theorem exists_mem_mapM {list : List α} {f : α → Checked β} {results : List β}
    (h : list.mapM f = .ok results) {a : α} (ha : a ∈ list) :
    ∃ b ∈ results, f a = .ok b := by
  have hall := mapM_eq_ok h
  clear h
  induction hall with
  | nil => exact absurd ha List.not_mem_nil
  | cons hfirst _ ih =>
      rcases List.mem_cons.mp ha with rfl | ha
      · exact ⟨_, List.mem_cons_self, hfirst⟩
      · obtain ⟨b, hmem, hb⟩ := ih ha
        exact ⟨b, List.mem_cons_of_mem _ hmem, hb⟩

theorem filterMapM_eq_nil {list : List α} {f : α → Checked (Option β)} {results : List β}
    (hnone : ∀ a ∈ list, ∀ b, f a = .ok b → b = none)
    (h : list.filterMapM f = .ok results) : results = [] := by
  obtain ⟨found, hfound, rfl⟩ := filterMapM_eq_ok h
  clear h
  induction hfound with
  | nil => rfl
  | @cons a b rest bs hfirst _ ih =>
      obtain rfl := hnone a List.mem_cons_self b hfirst
      exact ih fun a' hmem => hnone a' (List.mem_cons_of_mem a hmem)

theorem filterMapM_of_eq_none {list : List α} {f : α → Checked (Option β)}
    (h : ∀ a ∈ list, f a = .ok none) : list.filterMapM f = .ok [] := by
  induction list with
  | nil => rfl
  | cons a rest ih =>
      rw [List.filterMapM_cons, h a List.mem_cons_self]
      exact ih fun other hmem => h other (List.mem_cons_of_mem a hmem)

/-- A search that found something found it in one of its rounds. -/
theorem anyM_eq_ok_true {list : List α} {test : α → Checked Bool} (h : list.anyM test = .ok true) :
    ∃ item ∈ list, test item = .ok true := by
  induction list with
  | nil => cases h
  | cons first rest ih =>
      obtain ⟨found, hfirst, h⟩ := bind_eq_ok.mp h
      cases found with
      | true => exact ⟨first, List.mem_cons_self, hfirst⟩
      | false =>
          obtain ⟨item, hitem, htest⟩ := ih h
          exact ⟨item, List.mem_cons_of_mem first hitem, htest⟩

/-- No round of a search that found nothing found anything. -/
theorem anyM_eq_ok_false {list : List α} {test : α → Checked Bool}
    (h : list.anyM test = .ok false) {item : α} (hitem : item ∈ list) : test item = .ok false := by
  induction list with
  | nil => exact absurd hitem List.not_mem_nil
  | cons first rest ih =>
      obtain ⟨found, hfirst, h⟩ := bind_eq_ok.mp h
      cases found with
      | true => cases h
      | false =>
          rcases List.mem_cons.mp hitem with rfl | hitem
          · exact hfirst
          · exact ih h hitem

/-- What passes a filter whose tests can fail. -/
theorem mem_filterM {list results : List α} {test : α → Checked Bool}
    (h : list.filterM test = .ok results) {a : α} :
    a ∈ results ↔ a ∈ list ∧ test a = .ok true := by
  have hloop : ∀ {list found results : List α}, list.filterAuxM test found = .ok results →
      (a ∈ results ↔ a ∈ found ∨ a ∈ list ∧ test a = .ok true) := by
    intro list
    induction list with
    | nil =>
        intro found results h
        obtain rfl := pure_eq_ok.mp h
        simp
    | cons first rest ih =>
        intro found results h
        obtain ⟨passes, hfirst, h⟩ := bind_eq_ok.mp h
        rw [ih h]
        cases passes with
        | true =>
            simp only [cond_true, List.mem_cons]
            constructor
            · rintro ((rfl | hfound) | ⟨hrest, hpasses⟩)
              · exact Or.inr ⟨Or.inl rfl, hfirst⟩
              · exact Or.inl hfound
              · exact Or.inr ⟨Or.inr hrest, hpasses⟩
            · rintro (hfound | ⟨rfl | hrest, hpasses⟩)
              · exact Or.inl (Or.inr hfound)
              · exact Or.inl (Or.inl rfl)
              · exact Or.inr ⟨hrest, hpasses⟩
        | false =>
            simp only [cond_false, List.mem_cons]
            refine or_congr_right ⟨fun hrest => ⟨Or.inr hrest.1, hrest.2⟩, ?_⟩
            rintro ⟨rfl | hrest, hpasses⟩
            · rw [hfirst] at hpasses
              cases hpasses
            · exact ⟨hrest, hpasses⟩
  obtain ⟨reversed, hreversed, h⟩ := bind_eq_ok.mp h
  obtain rfl := pure_eq_ok.mp h
  rw [List.mem_reverse, hloop hreversed]
  simp

/-! ## Loops that agree -/

theorem bind_congr {work : Checked α} {next next' : α → Checked β}
    (h : ∀ value, work = .ok value → next value = next' value) :
    (work >>= next) = (work >>= next') := by
  cases work with
  | ok value => exact h value rfl
  | error failure => rfl

/-- Loops whose rounds agree where an invariant of theirs holds. -/
theorem foldlM_congr {P : β → Prop} {list : List α} {round round' : β → α → Checked β}
    (h : ∀ item ∈ list, ∀ value, P value →
      round' value item = round value item ∧ ∀ next, round value item = .ok next → P next)
    {start : β} (hstart : P start) : list.foldlM round' start = list.foldlM round start := by
  induction list generalizing start with
  | nil => rfl
  | cons item rest ih =>
      obtain ⟨hsame, hkept⟩ := h item List.mem_cons_self start hstart
      rw [List.foldlM_cons, List.foldlM_cons, hsame]
      exact bind_congr fun value hvalue =>
        ih (fun other hmem => h other (List.mem_cons_of_mem _ hmem)) (hkept value hvalue)

theorem mapM_congr {list : List α} {f f' : α → Checked β} (h : ∀ item ∈ list, f' item = f item) :
    list.mapM f' = list.mapM f := by
  induction list with
  | nil => rfl
  | cons item rest ih =>
      rw [List.mapM_cons, List.mapM_cons, h item List.mem_cons_self,
        ih fun other hmem => h other (List.mem_cons_of_mem _ hmem)]

theorem mapM_map {γ : Type} {list : List α} {f : α → Checked β} {change : β → γ} :
    list.mapM (fun item => change <$> f item) = List.map change <$> list.mapM f := by
  induction list with
  | nil => rfl
  | cons item rest ih =>
      simp only [List.mapM_cons, ih, bind_map_left, map_bind, map_pure, List.map_cons]

theorem filterMapM_congr {list : List α} {f f' : α → Checked (Option β)}
    (h : ∀ item ∈ list, f' item = f item) : list.filterMapM f' = list.filterMapM f := by
  induction list with
  | nil => rfl
  | cons item rest ih =>
      rw [List.filterMapM_cons, List.filterMapM_cons, h item List.mem_cons_self,
        ih fun other hmem => h other (List.mem_cons_of_mem _ hmem)]

end Checked

end SlotScheduling
