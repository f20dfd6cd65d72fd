import Viengoos.AsBuild.Preserve
import Viengoos.Exact

/-!
# Translation through a page-table tree

What `as_lookup_rel_internal` finds below a slot that represents a tree. `At t p a t' q` says that
the bits `a` lead from `p` to the slot `q`, with the subtree `t'` there. The walker follows every
such path (`At.walks`), and as long as it compares guards in full it follows no other until it
enters something that was inserted (`Walks.at_or_holds`).
-/

namespace Viengoos

open BitString Outcome PageTree List AddrTrans Cap Shadow

/-! ### Subtrees -/

/-- The bits `a` lead from `p` to the subtree `t'` in slot `q`. -/
inductive At : PageTree → ShadowPtr → List Bool → PageTree → ShadowPtr → Prop
  | here {t : PageTree} {p : ShadowPtr} : At t p [] t p
  | child {g : List Bool} {o w i : ℕ} {ch : ℕ → PageTree} {t' : PageTree} {p q : ShadowPtr}
      {a : List Bool} : i < 2 ^ w → At (ch i) (.slot o i) a t' q →
      At (.table g o w ch) p (g ++ (bits w i ++ a)) t' q

variable {s s' : Shadow} {t t' t'' : PageTree} {p q : ShadowPtr} {a b e : List Bool}
variable {key u u' : ℕ}

theorem At.rep (h : At t p a t' q) (hrep : Rep s t p) : Rep s t' q := by
  induction h with
  | here => exact hrep
  | child hi _ ih => exact ih (hrep.2.2 _ hi)

variable {g : List Bool} {addr : VgAddr} {fuel : ℕ}

theorem At.holds (h : At t p a (.entry g) q) : Holds t p (a ++ g) q := by
  generalize ht : PageTree.entry g = t' at h
  induction h with
  | here =>
    subst ht
    exact .entry
  | child hi _ ih =>
    rw [append_assoc, append_assoc]
    exact .table hi (ih ht)

theorem PageTree.Holds.exists_at (h : Holds t p e q) :
    ∃ a g, At t p a (.entry g) q ∧ e = a ++ g := by
  induction h with
  | @entry g p => exact ⟨[], g, .here, rfl⟩
  | table hi _ ih =>
    obtain ⟨a, g, hat, rfl⟩ := ih
    exact ⟨_, g, .child hi hat, by simp⟩

/-- Where a subtree is found. -/
theorem At.slot_cases (h : At t p a t' q) :
    (q = p ∧ t' = t) ∨ ∃ o i, q = .slot o i ∧ o ∈ t.oids := by
  induction h with
  | here => exact .inl ⟨rfl, rfl⟩
  | @child g o w i ch t' p q a hi _ ih =>
    right
    rcases ih with ⟨rfl, -⟩ | ⟨o', j, rfl, ho'⟩
    · exact ⟨o, i, rfl, mem_oids_table.2 (.inl rfl)⟩
    · exact ⟨o', j, rfl, mem_oids_table.2 (.inr ⟨i, hi, ho'⟩)⟩

theorem At.oids_subset (h : At t p a t' q) : t'.oids ⊆ t.oids := by
  induction h with
  | here => exact subset_rfl
  | child hi _ ih => exact fun x hx => mem_oids_table.2 (.inr ⟨_, hi, ih hx⟩)

/-- **One slot, one subtree.** -/
theorem At.unique (h : At t p a t' q) (h' : At t p b t'' q) (hsep : t.Sep) (hout : t.Outside p) :
    t' = t'' := by
  induction h generalizing b t'' with
  | here =>
    rcases h'.slot_cases with ⟨-, rfl⟩ | ⟨o, i, rfl, ho⟩
    · rfl
    · exact absurd ho (hout o i rfl)
  | @child g o w i ch t' p q a hi hat ih =>
    cases h' with
    | here =>
      rcases (At.child (g := g) (p := p) hi hat).slot_cases with ⟨-, rfl⟩ | ⟨o, i, rfl, ho⟩
      · rfl
      · exact absurd ho (hout o i rfl)
    | @child _ _ _ j _ _ _ _ c hj hat' =>
      have hchild (k : ℕ) (hk : k < 2 ^ w) : (ch k).Outside (.slot o k) := by
        intro o' k' heq
        obtain ⟨rfl, -⟩ := ShadowPtr.slot.inj heq
        exact (hsep.1 k hk).2
      by_cases hij : i = j
      · subst hij
        exact ih hat' (hsep.1 i hi).1 (hchild i hi)
      · -- slots below different children are different
        exfalso
        rcases hat.slot_cases with ⟨rfl, -⟩ | ⟨o₁, k₁, rfl, ho₁⟩ <;>
          rcases hat'.slot_cases with ⟨heq, -⟩ | ⟨o₂, k₂, heq, ho₂⟩ <;>
            obtain ⟨ho, hk⟩ := ShadowPtr.slot.inj heq
        · exact hij hk
        · exact (hsep.1 j hj).2 (ho ▸ ho₂)
        · exact (hsep.1 i hi).2 (ho ▸ ho₁)
        · exact Set.disjoint_left.1 (hsep.2 i hi j hj hij) ho₁ (ho ▸ ho₂)

/-! ### The walker goes where the tree leads -/

/-- A hop through a page table. -/
theorem Rep.steps {o w i : ℕ} {ch : ℕ → PageTree}
    (hrep : Rep s (.table g o w ch) p) (hi : i < 2 ^ w)
    (hbits : bits u key = g ++ (bits w i ++ b)) :
    ∃ hop, Steps memory key s p u hop s (.slot o i) b.length ∧ hop.cap.type = .cappage := by
  obtain ⟨⟨htype, hoid, hsub, hlog, hok, hlist⟩, ⟨ho, -, hw0, hw8⟩, -⟩ := hrep
  have hwidth : indexWidth (s.read p) = some w := by
    have hw : (s.read p).addrTrans.subpageSizeLog2 = w := by
      rw [subpageSizeLog2, hlog]
      omega
    simp only [indexWidth, htype, hlog, hw]
    rw [if_pos (by omega)]
  have hbase : indexBase (s.read p) = 0 := by
    simp [indexBase, htype, subpageOffset, hsub]
  refine ⟨⟨s.read p, o, w, i⟩, ?_, htype⟩
  have hstep := steps_of_bits hok hwidth hw0 (by rwa [hoid]) hi
    (by rw [hbits, ← hlist, guardList])
  rwa [hoid, hbase, Nat.zero_add] at hstep

/-- **The walker follows every path of the tree**, through page tables only. -/
theorem At.walks (h : At t p a t' q) (hrep : Rep s t p) (hbits : bits u key = a ++ b) :
    ∃ hs, Walks memory key s p u hs s q b.length ∧
      (∀ hop ∈ hs, hop.cap.type = .cappage) ∧ hs.length ≤ a.length := by
  induction h generalizing u with
  | here =>
    have hlen : u = b.length := by simpa using congrArg List.length hbits
    exact ⟨[], hlen ▸ .nil, by simp, le_rfl⟩
  | @child g o w i ch t' p q a hi _ ih =>
    have hcut : bits u key = g ++ (bits w i ++ (a ++ b)) := by simpa using hbits
    obtain ⟨hop, hstep, htype⟩ := hrep.steps hi hcut
    have hrest : bits (a ++ b).length key = a ++ b := by
      have hlen := congrArg List.length hcut
      simp only [length_bits, length_append] at hlen
      have hsplit : bits u key =
          bits (g.length + w) (key / 2 ^ (a ++ b).length) ++ bits (a ++ b).length key := by
        rw [← bits_add, length_append, hlen, Nat.add_assoc]
      rw [hsplit, ← append_assoc] at hcut
      exact append_inj_right hcut (by simp)
    obtain ⟨hs, hwalk, hall, hle⟩ := ih (hrep.2.2 i hi) hrest
    refine ⟨hop :: hs, .cons hstep hwalk, ?_, ?_⟩
    · intro x hx
      rcases mem_cons.1 hx with rfl | hx
      · exact htype
      · exact hall x hx
    · have hw : 0 < w := hrep.2.1.2.2.1
      simp only [length_cons, length_append, length_bits]
      omega

/-! ### The walker goes nowhere else -/

/-- A guard that passes, compared in full, is a prefix of the address. -/
theorem Rep.guard_prefix (hrep : Rep s t p) (hpass : GuardPasses key u (s.read p))
    (hfit : field key u (s.read p).addrTrans.guardBits < 2 ^ 32) : t.guard <+: bits u key := by
  have heq := hpass.bits_eq_iff.2 hfit
  rw [← hrep.guardList_eq, guardList, ← heq, bits_field_append hpass.le]
  exact prefix_append _ _

/-- A hop from a slot of the tree goes down a table or through an entry. -/
theorem Rep.steps_cases {s₁ : Shadow} {hop : Hop} (hrep : Rep s t p)
    (hstep : Steps Shadow.memory key s p u hop s₁ q u')
    (hfit : field key u (s.read p).addrTrans.guardBits < 2 ^ 32) :
    (∃ g o w ch i, t = .table g o w ch ∧ i < 2 ^ w ∧ q = .slot o i ∧ s₁ = s ∧
        bits u key = g ++ (bits w i ++ bits u' key)) ∨
      ∃ g, t = .entry g ∧ g <+: bits u key := by
  have hcap : hop.cap = s.read p := hstep.cap
  have hguard : GuardPasses key u (s.read p) := hcap ▸ hstep.guard
  have hprefix := hrep.guard_prefix hguard hfit
  cases t with
  | empty =>
    -- a void capability cannot be indexed
    have hvoid : s.read p = Cap.void := hrep
    have hwidth := hstep.width
    rw [hcap, hvoid] at hwidth
    simp [indexWidth] at hwidth
  | entry g => exact .inr ⟨g, rfl, hprefix⟩
  | table g o w ch =>
    left
    obtain ⟨⟨htype, hoid, hsub, hlog, -, hlist⟩, ⟨ho, -, hw0, hw8⟩, -⟩ := id hrep
    have hlen := hstep.bits
    have hwidth : hop.width = w := by
      have h := hstep.width
      simp only [indexWidth, hcap, htype, hlog, AddrTrans.subpageSizeLog2] at h
      rw [if_pos (by omega)] at h
      have := Option.some.inj h
      omega
    rw [hcap, hwidth] at hlen
    have hsplit : bits u key = g ++ (bits w (field key (w + u') w) ++ bits u' key) := by
      have heq := hguard.bits_eq_iff.2 hfit
      rw [bits_field_append hguard.le, heq, ← Cap.guardList, hlist,
        show u - (s.read p).addrTrans.guardBits = w + u' by omega,
        bits_field_append (Nat.le_add_right w u'), Nat.add_sub_cancel_left]
    obtain ⟨rfl, hobj⟩ := Prod.mk.inj (Except.ok.inj hstep.object)
    rw [hoid, if_neg ho] at hobj
    refine ⟨g, o, w, ch, field key (w + u') w, rfl, field_lt _ _ _, ?_, rfl, hsplit⟩
    rw [hstep.target, Memory.target, hcap, htype, ← Option.some.inj hobj, hstep.index, hwidth]
    simp [Shadow.memory, indexBase, htype, AddrTrans.subpageOffset, hsub]

/-- **The walker stays in the tree** until it goes through an entry, whose address then begins the
address it is looking up. -/
theorem Walks.at_or_holds {hs : List Hop} (h : Walks memory key s p u hs s' q u')
    (hrep : Rep s t p) (hfit : GuardsFit memory s p key u) :
    (∃ a t', At t p a t' q ∧ bits u key = a ++ bits u' key) ∨
      ∃ e r, Holds t p e r ∧ e <+: bits u key := by
  induction h generalizing t with
  | nil => exact .inl ⟨[], t, .here, rfl⟩
  | cons hstep _ ih =>
    have hcap := hstep.cap
    obtain ⟨hhead, htail⟩ := (guardsFit_step_iff hstep).1 hfit
    rw [hcap] at hhead
    rcases hrep.steps_cases hstep hhead with
      ⟨g, o, w, ch, i, rfl, hi, rfl, rfl, hbits⟩ | ⟨g, rfl, hg⟩
    · rcases ih (hrep.2.2 i hi) htail with ⟨a, t', hat, ha⟩ | ⟨e, r, hr, he⟩
      · exact .inl ⟨_, t', .child hi hat, by rw [hbits, ha]; simp⟩
      · refine .inr ⟨_, r, .table hi hr, ?_⟩
        rw [hbits, prefix_append_right_inj, prefix_append_right_inj]
        exact he
    · exact .inr ⟨g, _, .entry, hg⟩

/-! ### Lookups -/

/-- Where the tree leads, the lookup ends if the address does: with no bits left, or with those of
the guard there. -/
theorem At.lookup (h : At t .root a t' q) (mode : LookupMode)
    (hrep : Rep s t .root) (haddr : addr.bits = a ++ b) (hfuel : addr.depth < fuel)
    (hend : b = [] ∧ (mode = .wantObject → t'.guard = []) ∨ b ≠ [] ∧ b = t'.guard) :
    ∃ ret, asLookupRel memory fuel .root addr none mode s = .ok (s, some ret) ∧
      ret.slot = q ∧ ret.cap = s.read q := by
  obtain ⟨hs, hwalk, -, hlen⟩ := h.walks hrep haddr
  have hrep' := h.rep hrep
  have hglen : t'.guard.length = (s.read q).addrTrans.guardBits := by
    rw [← hrep'.guardList_eq, length_guardList]
  have hdepth : addr.depth = a.length + b.length := by
    simpa using congrArg List.length haddr
  have hrest : bits b.length addr.num = b := by
    have hsplit : addr.bits =
        bits a.length (addr.num / 2 ^ b.length) ++ bits b.length addr.num := by
      rw [VgAddr.bits, hdepth, bits_add]
    rw [hsplit] at haddr
    exact append_inj_right haddr (by simp)
  let ret : LookupRet ShadowPtr :=
    { slot := q
      cap := s.read q
      writable :=
        strongPath (hs.map Hop.cap ++ if decide (b ≠ []) then [s.read q] else []) &&
          !(mode == .wantObject && (s.read q).type.weakP)
      hops := hs
      guardDone := decide (b ≠ []) }
  have hres : Resolves memory s .root addr none mode s ret :=
    { walk := by
        refine ⟨b.length, hwalk, ?_⟩
        rcases hend with ⟨h0, hobj⟩ | ⟨hne, hguard⟩
        · refine .inl ⟨by simp [ret, h0], by simp [h0], fun hm => .inr ?_⟩
          rw [← hglen, hobj hm]
          rfl
        · have hblen : b.length = (s.read q).addrTrans.guardBits := by rw [← hglen, hguard]
          refine .inr ⟨by simp [ret, hne], length_pos_iff.2 hne, hblen, .inr ⟨hblen.ge, ?_⟩⟩
          have hfits := (guard_prefix_iff addr.num b.length hrep').1
            (by rw [hrest, hguard])
          simp only [ret, hfits.2]
          exact Nat.mod_eq_of_lt ((s.read q).addrTrans.guard_lt.trans (by decide))
      cap := rfl
      admitted := fun c _ hc => by simp [Refused, refusesWeak] at hc
      type_ok := rfl
      slot_ok := fun _ => rfl
      writable := rfl }
  exact ⟨ret, asLookupRel_complete hres (by simp only [ret]; omega), rfl, rfl⟩

/-- **An entry is found at its address**, in each mode. -/
theorem PageTree.Holds.lookup (h : Holds t .root addr.bits q)
    (hrep : Rep s t .root) (mode : LookupMode) (hfuel : addr.depth < fuel) :
    ∃ ret, asLookupRel memory fuel .root addr none mode s = .ok (s, some ret) ∧
      ret.slot = q ∧ ret.cap = s.read q := by
  obtain ⟨a, g, hat, haddr⟩ := h.exists_at
  refine hat.lookup mode hrep haddr hfuel ?_
  by_cases hg : g = []
  · exact .inl ⟨hg, fun _ => hg⟩
  · exact .inr ⟨hg, rfl⟩

/-- **Away from all entries nothing inserted is found**: only free slots and page tables. -/
theorem Rep.lookup_away {type : Option CapType} {ret : LookupRet ShadowPtr} (hrep : Rep s t .root)
    (haway : ∀ e r, Holds t .root e r → ¬ e <+: addr.bits)
    (hfull : ComparedInFull memory s .root addr .wantObject)
    (h : asLookupRel memory fuel .root addr type .wantObject s = .ok (s', some ret)) :
    ∃ a t', At t .root a t' ret.slot ∧ (∀ g, t' ≠ .entry g) ∧ ret.cap = s.read ret.slot := by
  have hres := asLookupRel_sound h
  have hexact := hres.exact_iff.2 hfull
  obtain ⟨u, hwalk, hstop⟩ := hres.walk
  obtain rfl := walks_state hwalk
  have hcap : ret.cap = s'.read ret.slot := hres.cap
  rcases hwalk.at_or_holds hrep hfull.1 with ⟨a, t', hat, hbits⟩ | ⟨e, r, hr, he⟩
  swap
  · exact absurd he (haway e r hr)
  refine ⟨a, t', hat, fun g hg => ?_, hcap⟩
  subst hg
  refine haway _ _ hat.holds ?_
  -- the entry's guard is what is left of the address
  have hentry := hat.rep hrep
  have hguard : bits u addr.num = g := by
    rw [← hentry.2, guardList, ← hcap]
    rcases hstop with ⟨hdone, rfl, -⟩ | ⟨-, -, hall, hpass⟩
    · rcases hexact.2 rfl with hd | h0
      · simp [hdone] at hd
      · rw [h0]
        rfl
    · have hfit := (hwalk.bits_eq_iff.2 hfull.1).2 [] _ _ u .nil (hres.cap ▸ hpass)
      have heq := hpass.bits_eq_iff.2 (hres.cap ▸ hfit)
      rw [← heq, ← hall]
      simp [field]
  rw [VgAddr.bits, hbits, hguard]

theorem Inserted.away {start : ℕ} {log : List Built} (h : Inserted start s log t)
    (haway : ∀ x ∈ log, ¬ x.call.addr.bits <+: addr.bits) :
    ∀ e r, Holds t .root e r → ¬ e <+: addr.bits := by
  intro e r hr
  obtain ⟨x, hx, rfl⟩ := h.only e r hr
  exact haway x hx

/-- **Insertions are preserved.** From a void root, after any sequence of `as_build` and
`as_insert` calls at addresses of which none is a prefix of another:

* each address still resolves, in slot mode to the slot that was returned for it, unless a later
  call moved it into a page table which that call allocated, and in object mode to the capability
  inserted there, of which at most the guard has changed;
* an address below none of them, if its guards are compared in full, resolves to none of the
  slots found at them, but to a free slot or to a page table. -/
theorem builds_preserve {s s' : Shadow} {log : List Built} (hroot : s.root = Cap.void)
    (h : Builds s log s') (hfree : PrefixFree log) :
    (∀ x ∈ log, ∃ q, (q = x.slot ∨ ∃ o i, q = .slot o i ∧ x.next ≤ o ∧ o < s'.next) ∧
      ∀ fuel, x.call.addr.depth < fuel →
        (∃ ret, asLookupRel Shadow.memory fuel .root x.call.addr none .wantSlot s' =
            .ok (s', some ret) ∧ ret.slot = q) ∧
        ∃ ret, asLookupRel Shadow.memory fuel .root x.call.addr none .wantObject s' =
            .ok (s', some ret) ∧ ret.cap = s'.read q ∧ ret.cap.core = x.call.inserted.core) ∧
    (∀ (addr : VgAddr) (fuel : ℕ) (type : Option CapType) (s'' : Shadow)
        (ret : LookupRet ShadowPtr), (∀ x ∈ log, ¬ x.call.addr.bits <+: addr.bits) →
      ComparedInFull Shadow.memory s' .root addr .wantObject →
      asLookupRel Shadow.memory fuel .root addr type .wantObject s' = .ok (s'', some ret) →
      (∀ x ∈ log, ∀ (fuel' : ℕ) (r : LookupRet ShadowPtr), x.call.addr.depth < fuel' →
        asLookupRel Shadow.memory fuel' .root x.call.addr none .wantSlot s' = .ok (s', some r) →
        r.slot ≠ ret.slot) ∧
      (ret.cap = Cap.void ∨
        ret.cap.type = .cappage ∧ s.next ≤ ret.cap.oid ∧ ret.cap.oid < s'.next)) := by
  obtain ⟨t, ht⟩ := h.inserted hroot hfree
  refine ⟨fun x hx => ?_, fun addr fuel type s'' ret haway hfull hlookup => ⟨?_, ?_⟩⟩
  · obtain ⟨q, hq, hcore, hloc⟩ := ht.entries x hx
    refine ⟨q, ?_, fun fuel hfuel => ⟨?_, ?_⟩⟩
    · refine hloc.imp id ?_
      rintro ⟨o, i, rfl, ho⟩
      rcases hq.slot_cases with heq | ⟨o', i', heq, ho'⟩
      · cases heq
      · obtain ⟨rfl, rfl⟩ := ShadowPtr.slot.inj heq
        exact ⟨o, i, rfl, ho, ht.rep.oids_lt ho'⟩
    · obtain ⟨ret, hret, hslot, -⟩ := hq.lookup ht.rep .wantSlot hfuel
      exact ⟨ret, hret, hslot⟩
    · obtain ⟨ret, hret, -, hcap⟩ := hq.lookup ht.rep .wantObject hfuel
      exact ⟨ret, hret, hcap, by rw [hcap, hcore]⟩
  · -- a slot found at an entry's address represents that entry
    obtain ⟨a, t', hat, hne, -⟩ := ht.rep.lookup_away (ht.away haway) hfull hlookup
    intro x hx fuel' r hfuel' hr heq
    obtain ⟨q, hq, -⟩ := ht.entries x hx
    obtain ⟨ret', hret', hslot, -⟩ := hq.lookup ht.rep .wantSlot hfuel'
    obtain rfl : ret' = r :=
      Option.some.inj (Prod.mk.inj (Except.ok.inj (hret'.symm.trans hr))).2
    obtain ⟨b, g, hat', -⟩ := hq.exists_at
    rw [← hslot, heq] at hat'
    exact hne g (hat.unique hat' ht.sep (by simp [Outside]))
  · obtain ⟨a, t', hat, hne, hcap⟩ := ht.rep.lookup_away (ht.away haway) hfull hlookup
    have hrep := hat.rep ht.rep
    rw [hcap]
    cases t' with
    | empty => exact .inl hrep
    | entry g => exact absurd rfl (hne g)
    | table g o w ch =>
      obtain ⟨⟨htype, hoid, -⟩, ⟨-, hlt, -⟩, -⟩ := hrep
      exact .inr ⟨htype, hoid ▸ ht.oids o (hat.oids_subset (mem_oids_table.2 (.inl rfl))),
        hoid ▸ hlt⟩

/-! ### Two pages -/

/-- A 64-bit build with all self checks in which every allocation succeeds. -/
def checkedEnv : BuildEnv := ⟨.w64, true, fun _ => true⟩

/-- An empty address space. -/
def emptySpace : Shadow := ⟨.void, fun _ _ => .void, 1⟩

/-- The address of page `n`. -/
def pageAddr (n : ℕ) (hn : n < 2 ^ 51) : VgAddr := .ofNum 51 n (by decide) hn

@[simp] theorem depth_pageAddr (n : ℕ) (hn : n < 2 ^ 51) : (pageAddr n hn).depth = 51 :=
  VgAddr.depth_ofNum

@[simp] theorem num_pageAddr (n : ℕ) (hn : n < 2 ^ 51) : (pageAddr n hn).num = n :=
  VgAddr.num_ofNum

/-- Insert a page at the address of page `n`. -/
def insertPage (n : ℕ) (hn : n < 2 ^ 51) : BuildCall :=
  .insert (pageAddr n hn) { Cap.void with type := .page, oid := 1000 + n }

/-- The state after a call. -/
def BuildCall.after (call : BuildCall) (s : Shadow) : Shadow :=
  match call.run checkedEnv 80 s with
  | .ok (_, s') => s'
  | .error _ => s

theorem BuildCall.run_after {call : BuildCall} {s : Shadow} {q : ShadowPtr}
    (h : (call.run checkedEnv 80 s).toOption.map Prod.fst = some (some q)) :
    call.run checkedEnv 80 s = .ok (some q, call.after s) := by
  unfold BuildCall.after
  cases hrun : call.run checkedEnv 80 s with
  | error f =>
    rw [hrun] at h
    cases h
  | ok r =>
    rw [hrun] at h
    obtain ⟨q', s'⟩ := r
    obtain rfl : q' = some q := Option.some.inj h
    rfl

/-- After inserting page 1, and then page 2. -/
def onePage : Shadow := (insertPage 1 (by decide)).after emptySpace

@[inherit_doc onePage]
def twoPages : Shadow := (insertPage 2 (by decide)).after onePage

/-- The two calls: the first returns the root, the second a slot of the table it inserts. -/
def twoPagesLog : List Built :=
  [⟨insertPage 1 (by decide), .root, onePage.next⟩,
    ⟨insertPage 2 (by decide), .slot 1 2, twoPages.next⟩]

theorem twoPages_builds : Builds emptySpace twoPagesLog twoPages := by
  have h₁ : Builds emptySpace [⟨insertPage 1 (by decide), .root, onePage.next⟩] onePage :=
    .snoc .nil (BuildCall.run_after (by rfl))
  exact .snoc h₁ (BuildCall.run_after (by rfl))

theorem twoPages_prefixFree : PrefixFree twoPagesLog := by
  unfold PrefixFree
  decide

/-- Page 1 resolves after both calls. -/
theorem builds_preserve_twoPages :
    ∃ ret, asLookupRel Shadow.memory 80 .root (pageAddr 1 (by decide)) none .wantObject twoPages =
      .ok (twoPages, some ret) ∧ ret.cap.core = (insertPage 1 (by decide)).inserted.core := by
  have h := builds_preserve (s := emptySpace) rfl twoPages_builds twoPages_prefixFree
  obtain ⟨q, -, hq⟩ := h.1 _ (mem_cons_self ..)
  obtain ⟨-, ret, hret, -, hcore⟩ := hq 80 (by decide)
  exact ⟨ret, hret, hcore⟩

/-- The second call **moves** page 1 from the slot that the first one returned, the root, into the
page table it inserts there. -/
theorem twoPages_moved :
    Builds emptySpace twoPagesLog twoPages ∧ PrefixFree twoPagesLog ∧
      ∃ x ∈ twoPagesLog, ∃ ret,
        asLookupRel Shadow.memory 80 .root x.call.addr none .wantSlot twoPages =
          .ok (twoPages, some ret) ∧ ret.slot ≠ x.slot := by
  refine ⟨twoPages_builds, twoPages_prefixFree, _, mem_cons_self .., ?_⟩
  exact ⟨⟨.slot 1 1, twoPages.caps 1 1, true, [⟨twoPages.root, 1, 7, 1⟩], false⟩, by rfl, by decide⟩

end Viengoos
