import Mathlib

/-!
# Totals over a hierarchy

Nodes with an amount of their own, each below a chain of other nodes: `up b` is `b` followed by
what is above it. The books are **balanced** when the total of every node is the sum of what it
and the nodes below it own. One rule for each change of the books: a charge that is passed up the
chain, and a node that joins or leaves.
-/

namespace Hierarchy

open Finset

variable {α M : Type*} [DecidableEq α] [AddCommGroup M]

/-- The total of each node is the sum over the nodes that have it in their chain. -/
def Balanced (T : Finset α) (up : α → List α) (own total : α → M) : Prop :=
  ∀ a ∈ T, total a = ∑ b ∈ T with a ∈ up b, own b

namespace Balanced

variable {T : Finset α} {up up' : α → List α} {own own' total total' : α → M} {a b c : α}

theorem congr (h : Balanced T up own total) (hup : ∀ b ∈ T, up' b = up b)
    (hown : ∀ b ∈ T, own' b = own b) (htotal : ∀ b ∈ T, total' b = total b) :
    Balanced T up' own' total' := by
  intro a ha
  rw [htotal a ha, h a ha]
  refine sum_congr ?_ fun b hb => (hown b (mem_filter.1 hb).1).symm
  ext b
  simp only [mem_filter]
  exact and_congr_right fun hb => by rw [hup b hb]

/-- What one node owns more shows in a sum over some nodes if the node is among them. -/
theorem sum_add_single (S : Finset α) (own : α → M) (b : α) (n : M) :
    ∑ c ∈ S, (own + Pi.single b n : α → M) c = ∑ c ∈ S, own c + if b ∈ S then n else 0 := by
  simp only [Pi.add_apply, sum_add_distrib, sum_pi_single']

/-- A node that owns nothing does not show in a sum. -/
theorem sum_erase (S : Finset α) (q : α → Prop) [DecidablePred q] (hown : own c = 0) :
    ∑ b ∈ S.erase c with q b, own b = ∑ b ∈ S with q b, own b := by
  refine sum_subset (filter_subset_filter _ (erase_subset _ _)) ?_
  intro b hb hnot
  have hbc : b = c := by
    by_contra hne
    simp only [mem_filter, mem_erase] at hb hnot
    exact hnot ⟨⟨hne, hb.1⟩, hb.2⟩
  rw [hbc, hown]

/-- **A charge** to a node is passed up its chain. -/
theorem charge (h : Balanced T up own total) (hb : b ∈ T) (n : M) :
    Balanced T up (own + Pi.single b n : α → M) fun a => total a + if a ∈ up b then n else 0 := by
  intro a ha
  rw [sum_add_single, ← h a ha]
  simp [hb]

/-- **A node joins** with nothing of its own and nothing below it. -/
theorem insert (h : Balanced T up own total) (hc : up c = [c]) (hbelow : ∀ b ∈ T, c ∉ up b)
    (hown : own c = 0) (htotal : total c = 0) : Balanced (insert c T) up own total := by
  intro a ha
  rcases mem_insert.1 ha with rfl | haT
  · refine htotal.trans (sum_eq_zero fun b hb => ?_).symm
    obtain ⟨hb, hab⟩ := mem_filter.1 hb
    rcases mem_insert.1 hb with rfl | hb
    · exact hown
    · exact absurd hab (hbelow b hb)
  · rw [h a haT, ← sum_erase T _ hown, ← sum_erase (Insert.insert c T) _ hown,
      erase_insert_eq_erase]

/-- **A node leaves** that owns nothing. -/
theorem erase (h : Balanced T up own total) (hown : own c = 0) :
    Balanced (T.erase c) up own total := by
  intro a ha
  rw [h a (mem_of_mem_erase ha), sum_erase T _ hown]

end Balanced

end Hierarchy
