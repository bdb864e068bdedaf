import Mathlib.Data.List.Nodup
import Mathlib.Data.List.Perm.Basic

/-! # Actions in some order

Actions that may fail are done one after another. Two orders of them come to the same where they
agree on the pairs that do not commute; and what only one of the actions touches is as that one
leaves it. -/
namespace HyperNet.Core.Commuting

variable {α σ : Type*} {f : α → σ → Option σ} {as bs : List α} {a b : α} {s t : σ}

/-- The actions one after another, as long as they have outcomes. -/
def runAll (f : α → σ → Option σ) : List α → σ → Option σ
  | [], s => some s
  | a :: as, s => (f a s).bind (runAll f as)

theorem runAll_append (f : α → σ → Option σ) (as bs : List α) (s : σ) :
    runAll f (as ++ bs) s = (runAll f as s).bind (runAll f bs) := by
  induction as generalizing s with
  | nil => rfl
  | cons a as ih =>
    simp only [List.cons_append, runAll, Option.bind_assoc]
    exact congrArg _ (funext ih)

/-- The two actions come to the same in either order. -/
def Commutes (f : α → σ → Option σ) (a b : α) : Prop :=
  ∀ s, (f a s).bind (f b) = (f b s).bind (f a)

/-- An action moves before those that it commutes with. -/
theorem runAll_front (h : ∀ b ∈ as, Commutes f b a) (s : σ) :
    runAll f (as ++ a :: bs) s = runAll f (a :: (as ++ bs)) s := by
  induction as generalizing s with
  | nil => rfl
  | cons b as ih =>
    have hrest : ∀ c ∈ as, Commutes f c a := fun c hc => h c (List.mem_cons_of_mem _ hc)
    calc runAll f (b :: as ++ a :: bs) s
        = (f b s).bind (runAll f (a :: (as ++ bs))) := congrArg _ (funext (ih hrest))
      _ = ((f b s).bind (f a)).bind (runAll f (as ++ bs)) := (Option.bind_assoc ..).symm
      _ = ((f a s).bind (f b)).bind (runAll f (as ++ bs)) := by rw [h b List.mem_cons_self s]
      _ = runAll f (a :: (b :: as ++ bs)) s := Option.bind_assoc ..

/-- `a` comes before `b`. -/
def Before (as : List α) (a b : α) : Prop := [a, b].Sublist as

instance [DecidableEq α] (as : List α) (a b : α) : Decidable (Before as a b) :=
  inferInstanceAs (Decidable (List.Sublist _ _))

/-- Two actions of another list are in the order that they have with one more in between. -/
theorem before_insert {c : α} (ha : a ≠ c) (hb : b ≠ c) :
    Before (as ++ c :: bs) a b ↔ Before (as ++ bs) a b := by
  constructor
  · intro h
    obtain ⟨l₁, l₂, hl, h₁, h₂⟩ := List.sublist_append_iff.mp h
    have hc : c ∉ l₂ := by
      intro hm
      have hab : c ∈ [a, b] := hl ▸ List.mem_append_right l₁ hm
      simp only [List.mem_cons, List.not_mem_nil, or_false] at hab
      exact hab.elim (fun he => ha he.symm) fun he => hb he.symm
    rw [Before, hl]
    refine h₁.append ?_
    rcases List.sublist_cons_iff.mp h₂ with h₂ | ⟨r, rfl, _⟩
    · exact h₂
    · exact absurd List.mem_cons_self hc
  · exact fun h => h.trans ((List.sublist_cons_self c bs).append_left as)

/-- An action comes before the others that stand after its place in the list. -/
theorem before_iff_right (ha : a ∉ as) (ha' : a ∉ bs) : Before (as ++ a :: bs) a b ↔ b ∈ bs := by
  constructor
  · intro h
    obtain ⟨l₁, l₂, hl, h₁, h₂⟩ := List.sublist_append_iff.mp h
    cases l₁ with
    | nil =>
      obtain rfl : [a, b] = l₂ := hl
      rcases List.sublist_cons_iff.mp h₂ with h₂ | ⟨r, hr, h₂⟩
      · exact absurd (h₂.subset List.mem_cons_self) ha'
      · cases hr
        exact List.singleton_sublist.mp h₂
    | cons c l₁ =>
      obtain rfl : a = c := (List.cons.inj hl).1
      exact absurd (h₁.subset List.mem_cons_self) ha
  · intro hb
    have hs : [a, b].Sublist (a :: bs) := (List.singleton_sublist.mpr hb).cons_cons a
    exact hs.trans (List.sublist_append_right as _)

/-- An action comes after the others that stand before its place in the list. -/
theorem before_iff_left (ha' : a ∉ bs) (hb : b ≠ a) : Before (as ++ a :: bs) b a ↔ b ∈ as := by
  constructor
  · intro h
    obtain ⟨l₁, l₂, hl, h₁, h₂⟩ := List.sublist_append_iff.mp h
    cases l₁ with
    | nil =>
      obtain rfl : [b, a] = l₂ := hl
      rcases List.sublist_cons_iff.mp h₂ with h₂ | ⟨r, hr, _⟩
      · exact absurd (h₂.subset (List.mem_cons_of_mem _ List.mem_cons_self)) ha'
      · exact absurd (List.cons.inj hr).1 hb
    | cons c l₁ =>
      obtain rfl : b = c := (List.cons.inj hl).1
      exact h₁.subset List.mem_cons_self
  · exact fun hb => (List.singleton_sublist.mpr hb).append
      (List.singleton_sublist.mpr List.mem_cons_self)

/-- Of two actions one comes before the other. -/
theorem before_swap (hn : as.Nodup) (ha : a ∈ as) (hb : b ∈ as) (hab : a ≠ b) :
    Before as b a ↔ ¬ Before as a b := by
  obtain ⟨pre, post, rfl⟩ := List.append_of_mem ha
  obtain ⟨hmem, hn⟩ := List.nodup_cons.mp (List.nodup_middle.mp hn)
  obtain ⟨hpre, hpost⟩ := not_or.mp (mt List.mem_append.mpr hmem)
  rw [before_iff_right hpre hpost, before_iff_left hpost hab.symm]
  refine ⟨fun hb hb' => (List.nodup_append.mp hn).2.2 b hb b hb' rfl, fun hb' => ?_⟩
  refine (List.mem_append.mp hb).resolve_right fun hb => ?_
  exact hb' ((List.mem_cons.mp hb).resolve_left hab.symm)

/-- Two orders that agree on the actions that do not commute come to the same. -/
theorem runAll_perm (hp : as.Perm bs) (hn : as.Nodup)
    (h : ∀ a ∈ as, ∀ b ∈ as, a ≠ b → Commutes f a b ∨ (Before as a b ↔ Before bs a b)) (s : σ) :
    runAll f as s = runAll f bs s := by
  induction as generalizing bs s with
  | nil => rw [hp.nil_eq]
  | cons a as ih =>
    obtain ⟨ha, hn⟩ := List.nodup_cons.mp hn
    obtain ⟨pre, post, rfl⟩ := List.append_of_mem (hp.subset List.mem_cons_self)
    have hrest : as.Perm (pre ++ post) := List.Perm.cons_inv (hp.trans List.perm_middle)
    -- what comes before `a` in the other order comes after it in this one
    have hfront : ∀ b ∈ pre, Commutes f b a := by
      intro b hb
      have hmem : b ∈ as := hrest.mem_iff.mpr (List.mem_append_left _ hb)
      have hne : b ≠ a := fun he => ha (he ▸ hmem)
      refine (h b (List.mem_cons_of_mem _ hmem) a List.mem_cons_self hne).resolve_right ?_
      intro hiff
      have hbefore : Before (pre ++ a :: post) b a :=
        (List.singleton_sublist.mpr hb).append (List.singleton_sublist.mpr List.mem_cons_self)
      rcases List.sublist_cons_iff.mp (hiff.mpr hbefore) with hs | ⟨r, hr, _⟩
      · exact ha (hs.subset (List.mem_cons_of_mem _ List.mem_cons_self))
      · exact hne (List.cons.inj hr).1
    rw [runAll_front hfront]
    refine congrArg _ (funext fun t => ih hrest hn (fun x hx y hy hne => ?_) t)
    have hxa : x ≠ a := fun he => ha (he ▸ hx)
    have hya : y ≠ a := fun he => ha (he ▸ hy)
    refine (h x (List.mem_cons_of_mem _ hx) y (List.mem_cons_of_mem _ hy) hne).imp_right ?_
    intro hiff
    rw [← before_insert hxa hya, ← hiff]
    exact (before_insert (show x ≠ a from hxa) hya : Before ([] ++ a :: as) x y ↔ _).symm

/-! ## What the actions touch

The state has parts. What an action does to the parts that it writes depends on those that it reads,
and the others stay. -/

/-- What is so before the actions is so after them. -/
theorem runAll_keeps {P : σ → Prop} (h : ∀ a ∈ as, ∀ s t, f a s = some t → P s → P t) (hs : P s)
    (ht : runAll f as s = some t) : P t := by
  induction as generalizing s with
  | nil =>
    cases ht
    exact hs
  | cons a as ih =>
    obtain ⟨u, hu, ht⟩ := Option.bind_eq_some_iff.mp ht
    exact ih (fun b hb => h b (List.mem_cons_of_mem _ hb)) (h a List.mem_cons_self s u hu hs) ht

/-- The actions have outcomes where each has one and leaves what the others need. -/
theorem exists_runAll {P : σ → Prop} (h : ∀ a ∈ as, ∀ s, P s → ∃ t, f a s = some t ∧ P t)
    (hs : P s) : ∃ t, runAll f as s = some t := by
  induction as generalizing s with
  | nil => exact ⟨s, rfl⟩
  | cons a as ih =>
    obtain ⟨u, hu, hP⟩ := h a List.mem_cons_self s hs
    obtain ⟨t, ht⟩ := ih (fun b hb => h b (List.mem_cons_of_mem _ hb)) hP
    exact ⟨t, Option.bind_eq_some_iff.mpr ⟨u, hu, ht⟩⟩

section Footprint
variable {ι : Type*} {β : ι → Type*} {get : ∀ i, σ → β i} {r w r' w' : List ι} {g g' : σ → Option σ}

/-- An action reads and writes only these parts. -/
structure Footprint (get : ∀ i, σ → β i) (g : σ → Option σ) (r w : List ι) : Prop where
  keeps : ∀ {s t}, g s = some t → ∀ i ∉ w, get i t = get i s
  follows : ∀ {s t s'}, g s = some t → (∀ i ∈ r, get i s' = get i s) →
    ∃ t', g s' = some t' ∧ ∀ i ∈ w, get i t' = get i t

/-- An action that writes none of these. -/
def Apart (w parts : List ι) : Prop := ∀ i ∈ w, i ∉ parts

instance [DecidableEq ι] (w parts : List ι) : Decidable (Apart w parts) :=
  inferInstanceAs (Decidable (∀ i ∈ w, i ∉ parts))

/-- An action whose parts the one before does not write comes to the same before that one. -/
theorem Footprint.swap (hg : Footprint get g r w) (hg' : Footprint get g' r' w')
    (hext : ∀ s t, (∀ i, get i s = get i t) → s = t) (h : Apart w (r' ++ w'))
    (h' : Apart w' (r ++ w)) (hst : (g s).bind g' = some t) : (g' s).bind g = some t := by
  obtain ⟨u, hu, ht⟩ := Option.bind_eq_some_iff.mp hst
  have hreads : ∀ i ∈ r', get i s = get i u := fun i hi =>
    (hg.keeps hu i fun hw => h i hw (List.mem_append_left _ hi)).symm
  obtain ⟨v, hv, hvw⟩ := hg'.follows ht hreads
  have hreads' : ∀ i ∈ r, get i v = get i s := fun i hi =>
    hg'.keeps hv i fun hw => h' i hw (List.mem_append_left _ hi)
  obtain ⟨t', ht', hw⟩ := hg.follows hu hreads'
  refine Option.bind_eq_some_iff.mpr ⟨v, hv, ht'.trans (congrArg some (hext _ _ fun i => ?_))⟩
  by_cases hi : i ∈ w
  · rw [hw i hi, hg'.keeps ht i fun hw' => h' i hw' (List.mem_append_right _ hi)]
  · rw [hg.keeps ht' i hi]
    by_cases hi' : i ∈ w'
    · exact hvw i hi'
    · rw [hg'.keeps hv i hi', hg'.keeps ht i hi', hg.keeps hu i hi]

/-- Actions that write nothing that the other reads or writes commute. -/
theorem Footprint.commutes {ra wa rb wb : List ι} (ha : Footprint get (f a) ra wa)
    (hb : Footprint get (f b) rb wb) (hext : ∀ s t, (∀ i, get i s = get i t) → s = t)
    (h : Apart wa (rb ++ wb)) (h' : Apart wb (ra ++ wa)) : Commutes f a b :=
  fun _ => Option.ext fun _ => ⟨ha.swap hb hext h h', hb.swap ha hext h' h⟩

/-- What none of the actions writes stays. -/
theorem runAll_unwritten {i : ι} (h : ∀ a ∈ as, ∀ s t, f a s = some t → get i t = get i s)
    (ht : runAll f as s = some t) : get i t = get i s :=
  runAll_keeps (P := fun t => get i t = get i s)
    (fun a ha u v huv hu => (h a ha u v huv).trans hu) rfl ht

/-- An action whose parts no other writes does what it does alone. -/
theorem runAll_undisturbed {reads writes : α → List ι}
    (hf : ∀ a ∈ as, Footprint get (f a) (reads a) (writes a)) (hn : as.Nodup) (ha : a ∈ as)
    (h : ∀ b ∈ as, b ≠ a → Apart (writes b) (reads a ++ writes a)) (ht : runAll f as s = some t) :
    ∃ u, f a s = some u ∧ ∀ i ∈ writes a, get i t = get i u := by
  obtain ⟨pre, post, rfl⟩ := List.append_of_mem ha
  have hnot : a ∉ pre ++ post := (List.nodup_cons.mp (List.nodup_middle.mp hn)).1
  have hother : ∀ b ∈ pre ++ post, ∀ i ∈ reads a ++ writes a, ∀ s t, f b s = some t →
      get i t = get i s := by
    intro b hb i hi s t hst
    have hmem : b ∈ pre ++ a :: post :=
      ((List.sublist_cons_self a post).append_left pre).subset hb
    exact (hf b hmem).keeps hst i fun hw => h b hmem (fun he => hnot (he ▸ hb)) i hw hi
  rw [runAll_append] at ht
  obtain ⟨u, hu, ht⟩ := Option.bind_eq_some_iff.mp ht
  obtain ⟨v, hv, ht⟩ := Option.bind_eq_some_iff.mp ht
  have hpre : ∀ i ∈ reads a, get i s = get i u := fun i hi =>
    (runAll_unwritten (fun b hb => hother b (List.mem_append_left _ hb) i
      (List.mem_append_left _ hi)) hu).symm
  obtain ⟨v', hv', hw⟩ := (hf a ha).follows hv hpre
  refine ⟨v', hv', fun i hi => (runAll_unwritten (fun b hb => ?_) ht).trans (hw i hi).symm⟩
  exact hother b (List.mem_append_right _ hb) i (List.mem_append_right _ hi)

end Footprint

end HyperNet.Core.Commuting
