import Mathlib.Logic.Function.Basic
import Mathlib.Tactic.Common

/-!
# Pages in frames and in slots

A page is nowhere, in a frame or in a slot. A frame that holds a page has a slot that is kept for this page.
-/

namespace Petrel.Lib

variable {κ φ σ β : Type}

inductive Place (φ σ : Type)
  | frame (f : φ)
  | slot (s : σ)

def slotOf (place : κ → Option (Place φ σ)) (back : φ → Option σ) (k : κ) : Option σ :=
  match place k with
  | none => none
  | some (.frame f) => back f
  | some (.slot s) => some s

def contents (zero : β) (mem : φ → β) (disk : σ → β) (place : κ → Option (Place φ σ)) (k : κ) : β :=
  match place k with
  | none => zero
  | some (.frame f) => mem f
  | some (.slot s) => disk s

/-- Frames and pages name each other, and the used slots are those of the pages, each of one page. -/
structure Backed (place : κ → Option (Place φ σ)) (owner : φ → Option κ) (back : φ → Option σ) (used : σ → Prop) :
    Prop where
  named : ∀ k f, place k = some (.frame f) ↔ owner f = some k
  backed : ∀ k f, owner f = some k → back f ≠ none
  used : ∀ s, used s ↔ ∃ k, slotOf place back k = some s
  inj : ∀ k l s, slotOf place back k = some s → slotOf place back l = some s → k = l

variable {place place' : κ → Option (Place φ σ)} {owner owner' : φ → Option κ} {back back' : φ → Option σ}
  {used used' : σ → Prop} {zero : β} {mem mem' : φ → β} {disk disk' : σ → β} {k l : κ} {f g : φ} {s x : σ}

theorem slotOf_frame (h : place k = some (.frame f)) : slotOf place back k = back f := by rw [slotOf, h]

theorem slotOf_slot (h : place k = some (.slot s)) : slotOf place back k = some s := by rw [slotOf, h]

theorem slotOf_none (h : place k = none) : slotOf place back k = none := by rw [slotOf, h]

theorem contents_keep (hl : place' l = place l) (hmem : ∀ g, place l = some (.frame g) → mem' g = mem g)
    (hdisk : ∀ x, place l = some (.slot x) → disk' x = disk x) :
    contents zero mem' disk' place' l = contents zero mem disk place l := by
  unfold contents
  rw [hl]
  cases hp : place l with
  | none => rfl
  | some p =>
    cases p with
    | frame g => exact hmem g hp
    | slot x => exact hdisk x hp

theorem contents_none (h : place k = none) : contents zero mem disk place k = zero := by rw [contents, h]

theorem contents_frame (h : place k = some (.frame f)) : contents zero mem disk place k = mem f := by rw [contents, h]

theorem contents_slot (h : place k = some (.slot s)) : contents zero mem disk place k = disk s := by rw [contents, h]

namespace Backed

section

variable (h : Backed place owner back used)

include h

theorem frame_inj (hk : place k = some (.frame f)) (hl : place l = some (.frame f)) : k = l :=
  Option.some.inj (((h.named k f).1 hk).symm.trans ((h.named l f).1 hl))

theorem slotOf_eq (hl : place' l = place l)
    (hback : ∀ g, owner g = some l → back' g = back g) : slotOf place' back' l = slotOf place back l := by
  unfold slotOf
  rw [hl]
  cases hp : place l with
  | none => rfl
  | some p =>
    cases p with
    | frame g => exact hback g ((h.named l g).1 hp)
    | slot s => rfl

theorem of_slots (hnamed : ∀ k f, place' k = some (.frame f) ↔ owner' f = some k)
    (hslot : ∀ k, slotOf place' back' k = slotOf place back k) (hused : ∀ s, used' s ↔ used s)
    (hbacked : ∀ k f, owner' f = some k → back' f ≠ none) : Backed place' owner' back' used' where
  named := hnamed
  backed := hbacked
  used s := by
    simp only [hslot]
    exact (hused s).trans (h.used s)
  inj k l s hk hl := h.inj k l s (hslot k ▸ hk) (hslot l ▸ hl)

theorem congr (hplace : ∀ l, place' l = place l) (howner : ∀ g, owner' g = owner g)
    (hback : ∀ g k, owner g = some k → back' g = back g) (hused : ∀ x, used' x ↔ used x) :
    Backed place' owner' back' used' := by
  refine h.of_slots (fun k f => ?_) (fun l => h.slotOf_eq (hplace l) fun g => hback g l) hused fun k f hf => ?_
  · rw [hplace, howner]
    exact h.named k f
  rw [howner] at hf
  rw [hback f k hf]
  exact h.backed k f hf

theorem evict (hk : place k = some (.frame f)) (hs : back f = some s)
    (hk' : place' k = some (.slot s)) (hplace : ∀ l, l ≠ k → place' l = place l) (hf : owner' f = none)
    (howner : ∀ g, g ≠ f → owner' g = owner g) (hback : ∀ g, g ≠ f → back' g = back g) (hused : ∀ x, used' x ↔ used x) :
    Backed place' owner' back' used' := by
  have hown := (h.named k f).1 hk
  have hne : ∀ {l g}, l ≠ k → owner g = some l → g ≠ f := by
    rintro l g hl hg rfl
    exact hl (Option.some.inj (hg.symm.trans hown))
  refine h.of_slots (fun l g => ?_) (fun l => ?_) hused fun l g hg => ?_
  · by_cases hl : l = k
    · subst hl
      constructor
      · intro hp
        cases hk'.symm.trans hp
      intro hg
      by_cases hgf : g = f
      · rw [hgf, hf] at hg
        cases hg
      rw [howner g hgf] at hg
      exact absurd (Place.frame.inj (Option.some.inj (((h.named l g).2 hg).symm.trans hk))) hgf
    rw [hplace l hl, h.named l g]
    by_cases hgf : g = f
    · rw [hgf, hf, hown]
      exact ⟨fun hx => absurd (Option.some.inj hx).symm hl, nofun⟩
    · rw [howner g hgf]
  · by_cases hl : l = k
    · rw [hl, slotOf_slot hk', slotOf_frame hk, hs]
    · exact h.slotOf_eq (hplace l hl) fun g hg => hback g (hne hl hg)
  by_cases hgf : g = f
  · rw [hgf, hf] at hg
    cases hg
  rw [howner g hgf] at hg
  rw [hback g hgf]
  exact h.backed l g hg

theorem named_put (hk : ∀ g, place k ≠ some (.frame g)) (hf : owner f = none)
    (hk' : place' k = some (.frame f)) (hplace : ∀ l, l ≠ k → place' l = place l) (hf' : owner' f = some k)
    (howner : ∀ g, g ≠ f → owner' g = owner g) (l : κ) (g : φ) : place' l = some (.frame g) ↔ owner' g = some l := by
  by_cases hl : l = k
  · subst hl
    rw [hk']
    by_cases hgf : g = f
    · rw [hgf, hf']
      exact iff_of_true rfl rfl
    rw [howner g hgf]
    exact ⟨fun hx => absurd (Place.frame.inj (Option.some.inj hx)).symm hgf,
      fun hx => absurd ((h.named l g).2 hx) (hk g)⟩
  rw [hplace l hl, h.named l g]
  by_cases hgf : g = f
  · rw [hgf, hf, hf']
    exact ⟨nofun, fun hx => absurd (Option.some.inj hx).symm hl⟩
  · rw [howner g hgf]

theorem load (hk : place k = some (.slot s)) (hf : owner f = none)
    (hk' : place' k = some (.frame f)) (hplace : ∀ l, l ≠ k → place' l = place l) (hf' : owner' f = some k)
    (howner : ∀ g, g ≠ f → owner' g = owner g) (hs : back' f = some s) (hback : ∀ g, g ≠ f → back' g = back g)
    (hused : ∀ x, used' x ↔ used x) : Backed place' owner' back' used' := by
  have hnone : ∀ g, place k ≠ some (.frame g) := fun g hg => by
    rw [hk] at hg
    cases hg
  have hne : ∀ {l g}, owner g = some l → g ≠ f := by
    rintro l g hg rfl
    cases hf.symm.trans hg
  refine h.of_slots (h.named_put hnone hf hk' hplace hf' howner) (fun l => ?_) hused fun l g hg => ?_
  · by_cases hl : l = k
    · rw [hl, slotOf_frame hk', slotOf_slot hk, hs]
    · exact h.slotOf_eq (hplace l hl) fun g hg => hback g (hne hg)
  by_cases hgf : g = f
  · rw [hgf, hs]
    nofun
  rw [howner g hgf] at hg
  rw [hback g hgf]
  exact h.backed l g hg

theorem insert (hk : place k = none) (hf : owner f = none) (hs : ¬ used s)
    (hk' : place' k = some (.frame f)) (hplace : ∀ l, l ≠ k → place' l = place l) (hf' : owner' f = some k)
    (howner : ∀ g, g ≠ f → owner' g = owner g) (hs' : back' f = some s) (hback : ∀ g, g ≠ f → back' g = back g)
    (hused : ∀ x, used' x ↔ x = s ∨ used x) : Backed place' owner' back' used' := by
  have hnone : ∀ g, place k ≠ some (.frame g) := fun g hg => by
    rw [hk] at hg
    cases hg
  have hne : ∀ {l g}, owner g = some l → g ≠ f := by
    rintro l g hg rfl
    cases hf.symm.trans hg
  have hslot : ∀ l, l ≠ k → slotOf place' back' l = slotOf place back l := fun l hl =>
    h.slotOf_eq (hplace l hl) fun g hg => hback g (hne hg)
  have hk'' : slotOf place' back' k = some s := by rw [slotOf_frame hk', hs']
  have hfresh : ∀ l, l ≠ k → slotOf place' back' l ≠ some s := fun l hl hls =>
    hs ((h.used s).2 ⟨l, hslot l hl ▸ hls⟩)
  refine ⟨h.named_put hnone hf hk' hplace hf' howner, fun l g hg => ?_, fun x => ?_, fun l m x hl hm => ?_⟩
  · by_cases hgf : g = f
    · rw [hgf, hs']
      nofun
    rw [howner g hgf] at hg
    rw [hback g hgf]
    exact h.backed l g hg
  · rw [hused x, h.used x]
    constructor
    · rintro (rfl | ⟨l, hl⟩)
      · exact ⟨k, hk''⟩
      have hlk : l ≠ k := by
        rintro rfl
        rw [slotOf_none hk] at hl
        cases hl
      exact ⟨l, (hslot l hlk).trans hl⟩
    rintro ⟨l, hl⟩
    by_cases hlk : l = k
    · rw [hlk, hk''] at hl
      exact .inl (Option.some.inj hl).symm
    · exact .inr ⟨l, hslot l hlk ▸ hl⟩
  by_cases hlk : l = k
  · by_cases hmk : m = k
    · rw [hlk, hmk]
    rw [hlk, hk''] at hl
    exact absurd (hm.trans hl.symm) (hfresh m hmk)
  by_cases hmk : m = k
  · rw [hmk, hk''] at hm
    exact absurd (hl.trans hm.symm) (hfresh l hlk)
  · exact h.inj l m x (hslot l hlk ▸ hl) (hslot m hmk ▸ hm)

theorem drop (hs : slotOf place back k = some s) (hk' : place' k = none)
    (hplace : ∀ l, l ≠ k → place' l = place l) (hgone : ∀ g, owner g = some k → owner' g = none)
    (howner : ∀ g, owner g ≠ some k → owner' g = owner g) (hback : ∀ g, owner g ≠ some k → back' g = back g)
    (hused : ∀ x, used' x ↔ x ≠ s ∧ used x) : Backed place' owner' back' used' := by
  have hslot : ∀ l, l ≠ k → slotOf place' back' l = slotOf place back l := fun l hl =>
    h.slotOf_eq (hplace l hl) fun g hg => hback g fun hgk => hl (Option.some.inj (hg.symm.trans hgk))
  have hk'' : slotOf place' back' k = none := slotOf_none hk'
  have hkeep : ∀ {l g}, owner' g = some l → l ≠ k ∧ owner g = some l := by
    intro l g hg
    by_cases hgk : owner g = some k
    · rw [hgone g hgk] at hg
      cases hg
    rw [howner g hgk] at hg
    exact ⟨fun hl => hgk (hl ▸ hg), hg⟩
  refine ⟨fun l g => ?_, fun l g hg => ?_, fun x => ?_, fun l m x hl hm => ?_⟩
  · by_cases hl : l = k
    · subst hl
      rw [hk']
      exact ⟨nofun, fun hg => absurd rfl (hkeep hg).1⟩
    rw [hplace l hl, h.named l g]
    refine ⟨fun hg => ?_, fun hg => (hkeep hg).2⟩
    rw [howner g fun hgk => hl (Option.some.inj (hg.symm.trans hgk))]
    exact hg
  · obtain ⟨hl, hg⟩ := hkeep hg
    rw [hback g fun hgk => hl (Option.some.inj (hg.symm.trans hgk))]
    exact h.backed l g hg
  · rw [hused x, h.used x]
    constructor
    · rintro ⟨hxs, l, hl⟩
      have hlk : l ≠ k := by
        rintro rfl
        exact hxs (Option.some.inj (hl.symm.trans hs))
      exact ⟨l, (hslot l hlk).trans hl⟩
    rintro ⟨l, hl⟩
    have hlk : l ≠ k := by
      rintro rfl
      rw [hk''] at hl
      cases hl
    rw [hslot l hlk] at hl
    refine ⟨?_, l, hl⟩
    rintro rfl
    exact hlk (h.inj l k x hl hs)
  have hlk : l ≠ k := by
    rintro rfl
    rw [hk''] at hl
    cases hl
  have hmk : m ≠ k := by
    rintro rfl
    rw [hk''] at hm
    cases hm
  exact h.inj l m x (hslot l hlk ▸ hl) (hslot m hmk ▸ hm)

end

end Backed

end Petrel.Lib
