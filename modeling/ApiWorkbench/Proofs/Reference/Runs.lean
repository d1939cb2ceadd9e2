import Mathlib.Data.List.Perm.Subperm
import ApiWorkbench.Proofs.Reference.Agreement

/-!
# Runs of the expansion

Seen step by step, an expansion walks through a value and keeps a chain of the
pointers that are open, those that it is inside of. What a pointer leads to is walked
through with that pointer on the chain, and afterwards the chain is what it was
before. `Walks` describes such a run: what it ends with, and how many pointers are
open at once at most. No run is cut off because it is too deep, so it has to be shown
that every value has one.

Pointers lead to parts of the document, which may well be larger than the value that has
the pointer. What becomes less is the number of pointers that are not open yet: they are
all mentioned in the value or in the document, and none of them is opened twice.

## Main results

* `Walks.unique`: a value is walked through in one way only.
* `exists_run`: the expansion of a value is a run through it.
* `walks_iff`: a value has a run, which ends with the expansion of the value and has no
  more pointers open than there are different ones.
-/

namespace ApiWorkbench.Reference

open Members

mutual

/-- A run through a value while the pointers in `chain` are open: what it ends with, and
how many pointers are open at most. -/
inductive Walks (shallow : Bool) (root : Value) :
    List String → Value → Except Fault Value → Nat → Prop where
  | scalar {chain : List String} {s : Scalar} :
      Walks shallow root chain (.scalar s) (.ok (.scalar s)) chain.length
  | pair {chain : List String} {a b : Value} :
      Walks shallow root chain (.pair a b) (.ok (.pair a b)) chain.length
  | set {chain : List String} {names : List Scalar} :
      Walks shallow root chain (.set names) (.ok (.set names)) chain.length
  | list {chain : List String} {xs : List Value} {outcome : Except Fault (List Value)}
      {peak : Nat} :
      WalksAll shallow root chain xs outcome peak →
        Walks shallow root chain (.list xs) (.list <$> outcome) peak
  | object {chain : List String} {ms : Members} {target : Except Fault Target}
      {outcome : Except Fault Value} {peak peak' : Nat} :
      Follows shallow root chain ms target peak →
        Replaces shallow root chain ms target outcome peak' →
        Walks shallow root chain (.object ms) outcome (max peak peak')

/-- A run through one value after the other, up to the first fault. -/
inductive WalksAll (shallow : Bool) (root : Value) :
    List String → List Value → Except Fault (List Value) → Nat → Prop where
  | nil {chain : List String} : WalksAll shallow root chain [] (.ok []) chain.length
  | failed {chain : List String} {v : Value} {rest : List Value} {fault : Fault}
      {peak : Nat} :
      Walks shallow root chain v (.error fault) peak →
        WalksAll shallow root chain (v :: rest) (.error fault) peak
  | cons {chain : List String} {v w : Value} {rest : List Value}
      {outcome : Except Fault (List Value)} {peak peak' : Nat} :
      Walks shallow root chain v (.ok w) peak →
        WalksAll shallow root chain rest outcome peak' →
        WalksAll shallow root chain (v :: rest) ((w :: ·) <$> outcome) (max peak peak')

/-- What becomes of the pointer of an object. An open pointer is held. What another one
leads to is walked through with that pointer open; a shallow run takes it as it is. -/
inductive Follows (shallow : Bool) (root : Value) :
    List String → Members → Except Fault Target → Nat → Prop where
  | plain {chain : List String} {ms : Members} :
      (∀ p, get? "$ref" ms ≠ some (.str p)) →
        Follows shallow root chain ms (.ok .missing) chain.length
  | held {chain : List String} {ms : Members} {p : String} :
      get? "$ref" ms = some (.str p) → p ∈ chain →
        Follows shallow root chain ms (.ok .held) chain.length
  | failed {chain : List String} {ms : Members} {p : String} {fault : Fault} :
      get? "$ref" ms = some (.str p) → p ∉ chain →
      resolve (.str p) root = .error fault →
        Follows shallow root chain ms (.error fault) chain.length
  | missing {chain : List String} {ms : Members} {p : String} :
      get? "$ref" ms = some (.str p) → p ∉ chain → resolve (.str p) root = .ok .null →
        Follows shallow root chain ms (.ok .missing) chain.length
  | taken {chain : List String} {ms : Members} {p : String} {next : Value} :
      shallow = true → get? "$ref" ms = some (.str p) → p ∉ chain →
        resolve (.str p) root = .ok next →
        next ≠ .null → Follows shallow root chain ms (.ok (.found next)) chain.length
  | opened {chain : List String} {ms : Members} {p : String} {next : Value}
      {outcome : Except Fault Value} {peak : Nat} :
      shallow = false → get? "$ref" ms = some (.str p) → p ∉ chain →
        resolve (.str p) root = .ok next →
        next ≠ .null → Walks shallow root (p :: chain) next outcome peak →
          Follows shallow root chain ms (.found <$> outcome) peak

/-- What becomes of an object, given what its pointer comes to. Its members are walked
through if there is nothing in its place; those beside the pointer, if there is
another object. -/
inductive Replaces (shallow : Bool) (root : Value) :
    List String → Members → Except Fault Target → Except Fault Value → Nat → Prop where
  | failed {chain : List String} {ms : Members} {fault : Fault} :
      Replaces shallow root chain ms (.error fault) (.error fault) chain.length
  | held {chain : List String} {ms : Members} :
      Replaces shallow root chain ms (.ok .held) (.ok (.object ms)) chain.length
  | missing {chain : List String} {ms : Members} {outcome : Except Fault (List Value)}
      {peak : Nat} :
      WalksAll shallow root chain (ms.map (·.2)) outcome peak →
        Replaces shallow root chain ms (.ok .missing)
          ((fun ws => .object ((names ms).zip ws)) <$> outcome) peak
  | joined {chain : List String} {ms base : Members}
      {outcome : Except Fault (List Value)} {peak : Nat} :
      WalksAll shallow root chain ((erase "$ref" ms).map (·.2)) outcome peak →
        Replaces shallow root chain ms (.ok (.found (.object base)))
          ((fun ws => .object (putAll base ((names (erase "$ref" ms)).zip ws))) <$>
            outcome) peak
  | replaced {chain : List String} {ms : Members} {w : Value} :
      w.isObject = false → Replaces shallow root chain ms (.ok (.found w))
        (.ok w) chain.length

end

section

variable {shallow : Bool} {root : Value}

/-! ## One run only -/

mutual

/-- A value is walked through in one way only. -/
theorem Walks.unique :
    ∀ {chain : List String} {v : Value} {outcome : Except Fault Value} {peak : Nat},
    Walks shallow root chain v outcome peak →
    ∀ {outcome' : Except Fault Value} {peak' : Nat},
    Walks shallow root chain v outcome' peak' → outcome = outcome' ∧ peak = peak'
  | _, _, _, _, .scalar => fun h' => by cases h'; exact ⟨rfl, rfl⟩
  | _, _, _, _, .pair => fun h' => by cases h'; exact ⟨rfl, rfl⟩
  | _, _, _, _, .set => fun h' => by cases h'; exact ⟨rfl, rfl⟩
  | _, _, _, _, .list h => fun h' => by
      cases h' with
      | list h' =>
          obtain ⟨rfl, rfl⟩ := WalksAll.unique h h'
          exact ⟨rfl, rfl⟩
  | _, _, _, _, .object hfollows hreplaces => fun h' => by
      cases h' with
      | object hfollows' hreplaces' =>
          obtain ⟨rfl, rfl⟩ := Follows.unique hfollows hfollows'
          obtain ⟨rfl, rfl⟩ := Replaces.unique hreplaces hreplaces'
          exact ⟨rfl, rfl⟩

theorem WalksAll.unique : ∀ {chain : List String} {vs : List Value}
    {outcome : Except Fault (List Value)} {peak : Nat}, WalksAll shallow root chain vs
    outcome peak → ∀ {outcome' : Except Fault (List Value)} {peak' : Nat},
    WalksAll shallow root chain vs outcome' peak' → outcome = outcome' ∧ peak = peak'
  | _, _, _, _, .nil => fun h' => by cases h'; exact ⟨rfl, rfl⟩
  | _, _, _, _, .failed h => fun h' => by
      cases h' with
      | failed h' =>
          obtain ⟨heq, rfl⟩ := Walks.unique h h'
          exact ⟨congrArg Except.error (Except.error.inj heq), rfl⟩
      | cons h' _ => cases (Walks.unique h h').1
  | _, _, _, _, .cons h hrest => fun h' => by
      cases h' with
      | failed h' => cases (Walks.unique h h').1
      | cons h' hrest' =>
          obtain ⟨heq, rfl⟩ := Walks.unique h h'
          obtain rfl := Except.ok.inj heq
          obtain ⟨rfl, rfl⟩ := WalksAll.unique hrest hrest'
          exact ⟨rfl, rfl⟩

theorem Follows.unique :
    ∀ {chain : List String} {ms : Members} {target : Except Fault Target} {peak : Nat},
    Follows shallow root chain ms target peak →
    ∀ {target' : Except Fault Target} {peak' : Nat},
    Follows shallow root chain ms target' peak' → target = target' ∧ peak = peak'
  | _, _, _, _, .plain _ => fun h' => by cases h' <;> simp_all
  | _, _, _, _, .held _ _ => fun h' => by cases h' <;> simp_all
  | _, _, _, _, .failed _ _ _ => fun h' => by cases h' <;> simp_all
  | _, _, _, _, .missing _ _ _ => fun h' => by cases h' <;> simp_all
  | _, _, _, _, .taken _ _ _ _ _ => fun h' => by cases h' <;> simp_all
  | _, _, _, _, .opened _ hget hp hnext _ h => fun h' => by
      cases h' with
      | opened _ hget' _ hnext' _ h' =>
          rw [hget, Option.some.injEq] at hget'
          cases hget'
          rw [hnext, Except.ok.injEq] at hnext'
          cases hnext'
          obtain ⟨rfl, rfl⟩ := Walks.unique h h'
          exact ⟨rfl, rfl⟩
      | _ => simp_all

theorem Replaces.unique : ∀ {chain : List String} {ms : Members}
    {target : Except Fault Target} {outcome : Except Fault Value} {peak : Nat},
    Replaces shallow root chain ms target outcome peak →
      ∀ {outcome' : Except Fault Value} {peak' : Nat},
        Replaces shallow root chain ms target outcome' peak' →
        outcome = outcome' ∧ peak = peak'
  | _, _, _, _, _, .failed => fun h' => by cases h'; exact ⟨rfl, rfl⟩
  | _, _, _, _, _, .held => fun h' => by cases h'; exact ⟨rfl, rfl⟩
  | _, _, _, _, _, .missing h => fun h' => by
      cases h' with
      | missing h' =>
          obtain ⟨rfl, rfl⟩ := WalksAll.unique h h'
          exact ⟨rfl, rfl⟩
  | _, _, _, _, _, .joined h => fun h' => by
      cases h' with
      | joined h' =>
          obtain ⟨rfl, rfl⟩ := WalksAll.unique h h'
          exact ⟨rfl, rfl⟩
      | replaced hw => contradiction
  | _, _, _, _, _, .replaced hw => fun h' => by
      cases h' with
      | joined _ => contradiction
      | replaced _ => exact ⟨rfl, rfl⟩

end

/-! ## A run along an expansion -/

variable {chain : List String} {follow : String → Except Fault Target} {bound : Nat}

/-- Members are expanded like the values that they have, and made into an object. -/
private theorem map_expandMembers (make : Members → Value) (ms : Members) :
    make <$> expandMembers follow ms = (fun ws => make ((names ms).zip ws)) <$>
      expandItems follow (ms.map (·.2)) := by
  induction ms generalizing make with
  | nil => rfl
  | cons e ms ih =>
      obtain ⟨k, v⟩ := e
      rw [expandMembers, List.map_cons, expandItems]
      cases expandWith follow v with
      | error fault => rfl
      | ok w =>
          have hrest := ih fun others => make ((k, w) :: others)
          rw [ok_bind, ok_bind]
          cases hms : expandMembers follow ms <;>
            cases hws : expandItems follow (ms.map (·.2)) <;> rw [hms, hws] at hrest <;>
            exact hrest

private theorem exists_walksAll {vs : List Value} (hchain : chain.length ≤ bound)
    (h : ∀ v ∈ vs, ∃ peak ≤ bound,
      Walks shallow root chain v (expandWith follow v) peak) :
    ∃ peak ≤ bound, WalksAll shallow root chain vs (expandItems follow vs) peak := by
  induction vs with
  | nil => exact ⟨_, hchain, .nil⟩
  | cons v rest ih =>
      rw [List.forall_mem_cons] at h
      obtain ⟨⟨peak, hpeak, hwalks⟩, hrest⟩ := h
      obtain ⟨peak', hpeak', hwalks'⟩ := ih hrest
      rw [expandItems]
      cases hv : expandWith follow v with
      | error fault =>
          rw [hv] at hwalks
          exact ⟨peak, hpeak, .failed hwalks⟩
      | ok w =>
          rw [hv] at hwalks
          refine ⟨max peak peak', Nat.max_le.mpr ⟨hpeak, hpeak'⟩, ?_⟩
          exact .cons hwalks hwalks'

/-- What an expansion makes of an object is what replaces it, whatever becomes
of its pointer. -/
private theorem exists_replaces {ms : Members} (hchain : chain.length ≤ bound)
    (hmembers : ∀ e ∈ ms, ∃ peak ≤ bound,
      Walks shallow root chain e.2 (expandWith follow e.2) peak) :
    ∃ peak ≤ bound, Replaces shallow root chain ms (target follow ms)
      (expandWith follow (.object ms)) peak := by
  have hwalks : ∀ ns : Members, (∀ e ∈ ns, e ∈ ms) →
      ∃ peak ≤ bound, WalksAll shallow root chain (ns.map (·.2))
        (expandItems follow (ns.map (·.2))) peak := by
    intro ns hns
    refine exists_walksAll hchain fun v hv => ?_
    obtain ⟨e, he, rfl⟩ := List.mem_map.mp hv
    exact hmembers e (hns e he)
  rw [expandWith]
  cases target follow ms with
  | error fault => exact ⟨_, hchain, .failed⟩
  | ok t =>
      rw [ok_bind]
      cases t with
      | held => exact ⟨_, hchain, .held⟩
      | missing =>
          obtain ⟨peak, hpeak, hall⟩ := hwalks ms fun _ he => he
          refine ⟨peak, hpeak, ?_⟩
          show Replaces _ _ _ _ _ (Value.object <$> expandMembers follow ms) _
          rw [map_expandMembers]
          exact .missing hall
      | found w =>
          cases w with
          | marked mark base =>
              obtain ⟨peak, hpeak, hall⟩ := hwalks (erase "$ref" ms) fun _ => mem_erase
              refine ⟨peak, hpeak, ?_⟩
              show Replaces _ _ _ _ _
                ((fun siblings => Value.object (putAll base siblings)) <$>
                  expandSiblings follow ms) _
              rw [expandSiblings_eq, map_expandMembers]
              exact .joined hall
          | _ => exact ⟨_, hchain, .replaced rfl⟩

/-- There is a run along an expansion if there is one for what it makes of each
pointer. -/
private theorem exists_walks {v : Value} (hchain : chain.length ≤ bound)
    (hfollow : ∀ ms p, v.Within (.object ms) → get? "$ref" ms = some (.str p) →
      ∃ peak ≤ bound, Follows shallow root chain ms (follow p) peak) :
    ∃ peak ≤ bound, Walks shallow root chain v (expandWith follow v) peak := by
  induction v using Tree.parts_induction with
  | scalar s => exact ⟨_, hchain, .scalar⟩
  | pair a b => exact ⟨_, hchain, .pair⟩
  | set names => exact ⟨_, hchain, .set⟩
  | list xs ih =>
      obtain ⟨peak, hpeak, hall⟩ :=
        exists_walksAll hchain fun x hx => ih x hx fun ms p hwithin =>
          hfollow ms p (.item hx hwithin)
      refine ⟨peak, hpeak, ?_⟩
      show Walks _ _ _ _ (.list <$> expandItems follow xs) _
      exact .list hall
  | marked mark ms ih =>
      have hmembers : ∀ e ∈ ms, ∃ peak ≤ bound,
          Walks shallow root chain e.2 (expandWith follow e.2) peak :=
        fun e he => ih e he fun ns p hwithin => hfollow ns p (.member he hwithin)
      have htarget : ∃ peak ≤ bound,
          Follows shallow root chain ms (target follow ms) peak := by
        unfold target
        split
        · rename_i p hget
          exact hfollow ms p (.here _) hget
        · rename_i hnone
          exact ⟨_, hchain, .plain hnone⟩
      obtain ⟨peak, hpeak, hfollows⟩ := htarget
      obtain ⟨peak', hpeak', hreplaces⟩ := exists_replaces hchain hmembers
      exact ⟨max peak peak', Nat.max_le.mpr ⟨hpeak, hpeak'⟩, .object hfollows hreplaces⟩

/-! ## The expansion as a run -/

variable {known free : List String} {depth : Nat} {v : Value}

/-- A pointer that is not open cannot be looked up, leads nowhere, or leads to
something. -/
private theorem followOnce_spec {ms : Members} {p : String}
    (hget : get? "$ref" ms = some (.str p)) (hp : p ∉ chain) :
    (∃ fault, followOnce root p = .error fault ∧
      Follows shallow root chain ms (.error fault) chain.length) ∨
      (followOnce root p = .ok .missing ∧
        Follows shallow root chain ms (.ok .missing) chain.length) ∨
        ∃ next, followOnce root p = .ok (.found next) ∧
          resolve (.str p) root = .ok next ∧ next ≠ .null := by
  cases hnext : resolve (.str p) root with
  | error fault =>
      have honce : followOnce root p = .error fault := by
        rw [followOnce, hnext, error_bind]
      exact .inl ⟨fault, honce, .failed hget hp hnext⟩
  | ok next =>
      have honce : followOnce root p =
          .ok (if next.isNull then .missing else .found next) := by
        rw [followOnce, hnext, ok_bind, pure_eq_ok]
      by_cases hnull : next = .null
      · subst hnull
        exact .inr (.inl ⟨honce, .missing hget hp hnext⟩)
      · have hfound : next.isNull = false := by
          unfold Tree.isNull
          split <;> simp_all
        rw [hfound] at honce
        exact .inr (.inr ⟨next, honce, rfl, hnull⟩)

/-- Every chain without repetition that is made of known pointers is at most as long as
they are many. -/
private theorem length_le_of_known (hnodup : chain.Nodup)
    (hknown : ∀ p ∈ chain, p ∈ known) :
    chain.length ≤ known.length :=
  (List.subperm_of_subset hnodup hknown).length_le

/-- An expansion to some depth is a run with those pointers open that it may not follow.
The depth is no bound to the run, since no more pointers can be opened than are left. -/
private theorem exists_walks_expandFrom (hroot : ∀ p, Mentions root p → p ∈ known)
    (hv : ∀ p, Mentions v p → p ∈ known) (hnodup : chain.Nodup)
    (hchain : ∀ p ∈ chain, p ∈ known) (hdepth : free.length ≤ depth)
    (hfree : ∀ p ∈ known, p ∈ free ↔ p ∉ chain) :
    ∃ peak ≤ known.length,
      Walks false root chain v (expandFrom root depth free v) peak := by
  induction depth generalizing chain free v with
  | zero =>
      obtain rfl := List.length_eq_zero_iff.mp (Nat.le_zero.mp hdepth)
      have hlength := length_le_of_known hnodup hchain
      refine exists_walks hlength fun ms p hwithin hget => ⟨_, hlength, .held hget ?_⟩
      simpa using hfree p (hv p ⟨ms, hwithin, hget⟩)
  | succ depth ih =>
      have hlength := length_le_of_known hnodup hchain
      rw [expandFrom_eq]
      refine exists_walks hlength fun ms p hwithin hget => ?_
      have hp := hv p ⟨ms, hwithin, hget⟩
      by_cases hopen : p ∈ chain
      · rw [followFrom_of_not_free ((hfree p hp).not.mpr (not_not_intro hopen))]
        exact ⟨_, hlength, .held hget hopen⟩
      · have hpfree := (hfree p hp).mpr hopen
        rw [followFrom, if_pos (by simpa using hpfree)]
        rcases followOnce_spec hget hopen with
          ⟨fault, honce, hfollows⟩ | ⟨honce, hfollows⟩ | ⟨next, honce, hnext, hnull⟩
        · rw [honce, error_bind]
          exact ⟨_, hlength, hfollows⟩
        · rw [honce, ok_bind]
          exact ⟨_, hlength, hfollows⟩
        · rw [honce, ok_bind]
          have hmentions : ∀ q, Mentions next q → q ∈ known :=
            fun q hq => hroot q (mentions_of_leadsTo ⟨next, hnext, hq⟩)
          have hshorter : (free.filter (· != p)).length < free.length :=
            List.length_filter_lt_length_iff_exists.mpr ⟨p, hpfree, by simp⟩
          have hleft : ∀ q ∈ known, q ∈ free.filter (· != p) ↔ q ∉ p :: chain := by
            intro q hq
            rw [List.mem_filter, hfree q hq, List.mem_cons, not_or, and_comm]
            simp
          obtain ⟨peak, hpeak, hwalks⟩ :=
            ih hmentions (List.nodup_cons.mpr ⟨hopen, hnodup⟩)
            (List.forall_mem_cons.mpr ⟨hp, hchain⟩) (by omega) hleft
          refine ⟨peak, hpeak, ?_⟩
          show Follows
            _ _ _ _ (.found <$> expandFrom root depth (free.filter (· != p)) next) _
          exact .opened rfl hget hopen hnext hnull hwalks

/-- The expansion of a value, shallow or not, is a run through it. -/
theorem exists_run (shallow : Bool) (node root : Value) :
    ∃ peak ≤ (pointers node ++ pointers root).eraseDups.length,
      Walks shallow root [] node
        (if shallow then expandShallow node root else expand node root) peak := by
  cases shallow with
  | false =>
      refine exists_walks_expandFrom (fun p hp => ?_) (fun p hp => ?_) List.nodup_nil
        (by simp) (Nat.le_refl _) ?_
      · simpa using .inr (mem_pointers_iff.mpr hp)
      · simpa using .inl (mem_pointers_iff.mpr hp)
      · simp
  | true =>
      refine exists_walks (Nat.zero_le _) fun ms p _ hget => ?_
      have hclosed : p ∉ ([] : List String) := List.not_mem_nil
      rcases followOnce_spec hget hclosed with
        ⟨fault, honce, hfollows⟩ | ⟨honce, hfollows⟩ | ⟨next, honce, hnext, hnull⟩
      · exact ⟨_, Nat.zero_le _, honce ▸ hfollows⟩
      · exact ⟨_, Nat.zero_le _, honce ▸ hfollows⟩
      · exact ⟨_, Nat.zero_le _, honce ▸ .taken rfl hget hclosed hnext hnull⟩

/-- A value is walked through in one way. The run ends with the expansion of the
value, and at no time are more pointers open than there are different ones in the
value and the document. -/
theorem walks_iff (shallow : Bool) (node root : Value) :
    ∃ peak ≤ (pointers node ++ pointers root).eraseDups.length, ∀ outcome k,
      Walks shallow root [] node outcome k ↔
        outcome = (if shallow then expandShallow node root else expand node root) ∧
          k = peak := by
  obtain ⟨peak, hpeak, hwalks⟩ := exists_run shallow node root
  refine ⟨peak, hpeak, fun outcome k => ⟨fun h => h.unique hwalks, ?_⟩⟩
  rintro ⟨rfl, rfl⟩
  exact hwalks

end

end ApiWorkbench.Reference
