import Mathlib.Logic.Relation

/-!
# Chains of pairs

A list of pairs is read as a relation from an element to one that takes its place. An element is
current when nothing takes its place, and it surfaces when some chain from it ends in a current
one.

## Main results

* `Chains.surfaces_concat_iff` — if every element surfaces, then after a pair is added every
  element still does just if the pair leaves a way out (`WayOut`).
* `Chains.surfaces_append` — the same for pairs that are added one after the other.
-/

set_option autoImplicit false

namespace Chains

open List

variable {α : Type}

variable (pairs : List (α × α))

/-- The pairs lead from one element to another. -/
def Leads : α → α → Prop :=
  Relation.ReflTransGen fun x y => (x, y) ∈ pairs

/-- Nothing takes the place of an element. -/
def Current (a : α) : Prop := ∀ b, (a, b) ∉ pairs

/-- A chain from the element ends in a current one. -/
def Surfaces (a : α) : Prop := ∃ b, Leads pairs a b ∧ Current pairs b

/-- The pair's first element is not current anyway, or its second one leads to a current element
other than the first. -/
def WayOut (p : α × α) : Prop :=
  ¬ Current pairs p.1 ∨ ∃ b, Leads pairs p.2 b ∧ Current pairs b ∧ b ≠ p.1

/-- Every pair of a list leaves a way out when its turn comes. -/
def WaysOut : List (α × α) → List (α × α) → Prop
  | _, [] => True
  | pairs, p :: more => WayOut pairs p ∧ WaysOut (pairs ++ [p]) more

variable {pairs pairs' more : List (α × α)} {p : α × α} {a b : α}

/-- More pairs lead further. -/
lemma Leads.mono (h : Leads pairs a b) (hsub : ∀ q ∈ pairs, q ∈ pairs') : Leads pairs' a b :=
  Relation.ReflTransGen.mono (fun x y hxy => hsub (x, y) hxy) _ _ h

/-- Whether an element surfaces depends on which pairs there are only. -/
lemma surfaces_congr (h : ∀ q, q ∈ pairs ↔ q ∈ pairs') : Surfaces pairs a ↔ Surfaces pairs' a := by
  unfold Surfaces
  refine exists_congr fun b => and_congr ?_ ?_
  · exact ⟨fun hl => hl.mono fun q hq => (h q).mp hq, fun hl => hl.mono fun q hq => (h q).mpr hq⟩
  · exact forall_congr' fun c => not_congr (h (b, c))

/-- The current elements after a pair is added. -/
lemma current_concat : Current (pairs ++ [p]) a ↔ Current pairs a ∧ a ≠ p.1 := by
  constructor
  · intro h
    refine ⟨fun b hb => h b (mem_append_left _ hb), ?_⟩
    rintro rfl
    exact h p.2 (mem_append_right _ (mem_singleton_self p))
  · rintro ⟨h, hne⟩ b hb
    rcases mem_append.mp hb with hb | hb
    · exact h b hb
    · exact hne (congrArg Prod.fst (mem_singleton.mp hb))

/-- What the second element of a new pair leads to is, apart from the first, what it led to. -/
lemma leads_of_leads_concat (h : Leads (pairs ++ [p]) p.1 b) : b = p.1 ∨ Leads pairs p.2 b ∨
    ∃ c, Leads pairs p.1 c ∧ Leads pairs c b ∧ c ≠ p.1 := by
  induction h with
  | refl => exact .inl rfl
  | @tail b c _ hstep ih =>
    rcases mem_append.mp hstep with hstep | hstep
    · rcases ih with rfl | hlead | ⟨d, hd, hlead, hne⟩
      · by_cases hc : c = p.1
        · exact .inl hc
        · exact .inr (.inr ⟨c, .single hstep, .refl, hc⟩)
      · exact .inr (.inl (hlead.tail hstep))
      · exact .inr (.inr ⟨d, hd, hlead.tail hstep, hne⟩)
    · cases mem_singleton.mp hstep
      exact .inr (.inl .refl)

/-- **Adding a pair.** If every element surfaces, then every element still does just if the pair
leaves a way out. -/
theorem surfaces_concat_iff (h : ∀ a, Surfaces pairs a) :
    (∀ a, Surfaces (pairs ++ [p]) a) ↔ WayOut pairs p := by
  constructor
  · intro hall
    by_cases hcur : Current pairs p.1
    · right
      obtain ⟨b, hlead, hb⟩ := hall p.1
      obtain ⟨hb, hne⟩ := current_concat.mp hb
      rcases leads_of_leads_concat hlead with heq | hlead | ⟨c, hc, -, hne'⟩
      · exact absurd heq hne
      · exact ⟨b, hlead, hb, hne⟩
      · -- A current element leads to itself only.
        rcases Relation.ReflTransGen.cases_head hc with heq | ⟨d, hd, -⟩
        · exact absurd heq.symm hne'
        · exact absurd hd (hcur d)
    · exact .inl hcur
  · intro hout a
    have hsub : ∀ q ∈ pairs, q ∈ pairs ++ [p] := fun q hq => mem_append_left _ hq
    obtain ⟨b, hlead, hb⟩ := h a
    by_cases heq : b = p.1
    · subst heq
      rcases hout with hnot | ⟨c, hlead', hc, hne⟩
      · exact absurd hb hnot
      · have hstep : (p.1, p.2) ∈ pairs ++ [p] := mem_append_right _ (mem_singleton_self p)
        exact ⟨c, ((hlead.mono hsub).tail hstep).trans (hlead'.mono hsub),
          current_concat.mpr ⟨hc, hne⟩⟩
    · exact ⟨b, hlead.mono hsub, current_concat.mpr ⟨hb, heq⟩⟩

/-- Pairs that are added one after the other. -/
lemma surfaces_append (h : ∀ a, Surfaces pairs a) (hout : WaysOut pairs more) :
    ∀ a, Surfaces (pairs ++ more) a := by
  induction more generalizing pairs with
  | nil => simpa using h
  | cons p more ih =>
    have hnext := ih ((surfaces_concat_iff h).mpr hout.1) hout.2
    simpa using hnext

end Chains
