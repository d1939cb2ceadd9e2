import ApiWorkbench.Proofs.Reference.Reachability
import ApiWorkbench.Proofs.Reference.Trace

/-!
# What is left after an expansion

Pointers that can be reached from a value and lead nowhere are left by its
expansion, and where pointers lead back to themselves the expansion is cut;
everything else is replaced.

The expansion holds a pointer back while it expands what it leads to. So a pointer is
held only while the expansion is beneath what it stands for, and that is the invariant:
a pointer that is not free leads to every pointer of the value at hand. A pointer that
is held then leads back to itself.

## Main results

* `traceFrom_exists`: an expansion whose pointers can be looked up has a result.
* `traceFrom_left`: what is left leads nowhere or back to itself, unless it stands
  beneath a cut.
* `expandFrom_fixed`: a value whose pointers lead nowhere is left as it is.
* `expand_complete`: the expansion of a value, with and without pointers that lead back
  to themselves.
-/

namespace ApiWorkbench.Reference

open Relation

/-! ## One walk -/

section

variable {follow : String → Except Fault TracedTarget}

theorem traceItems_iff {xs : List Value} {ys : List TracedValue} :
    traceItems follow xs = .ok ys ↔
      List.Forall₂ (fun x y => traceWith follow x = .ok y) xs ys := by
  induction xs generalizing ys with
  | nil => simp [traceItems, eq_comm]
  | cons x xs ih =>
      rw [traceItems, bind_eq_ok]
      constructor
      · rintro ⟨y, hy, hrest⟩
        obtain ⟨zs, hzs, heq⟩ := bind_eq_ok.mp hrest
        obtain rfl := Except.ok.inj heq
        exact .cons hy (ih.mp hzs)
      · intro h
        cases h with
        | cons hy hzs => exact ⟨_, hy, bind_eq_ok.mpr ⟨_, ih.mpr hzs, rfl⟩⟩

theorem traceMembers_iff {ms : Members} {ns : Tree.Members Place} :
    traceMembers follow ms = .ok ns ↔
      Members.Aligned (fun _ v w => traceWith follow v = .ok w) ms ns := by
  induction ms generalizing ns with
  | nil => simp [traceMembers, Members.Aligned, eq_comm]
  | cons e ms ih =>
      obtain ⟨k, v⟩ := e
      rw [traceMembers, bind_eq_ok]
      constructor
      · rintro ⟨w, hw, hrest⟩
        obtain ⟨others, hothers, heq⟩ := bind_eq_ok.mp hrest
        obtain rfl := Except.ok.inj heq
        exact .cons ⟨rfl, hw⟩ (ih.mp hothers)
      · intro h
        cases h with
        | @cons _ e' _ others he hothers =>
            obtain ⟨k', w⟩ := e'
            obtain ⟨rfl, hw⟩ := he
            exact ⟨w, hw, bind_eq_ok.mpr ⟨others, ih.mpr hothers, rfl⟩⟩

/-- The members beside a pointer are those that are left when it is taken away. -/
theorem traceSiblings_eq (ms : Members) :
    traceSiblings follow ms = traceMembers follow (Members.erase "$ref" ms) := by
  induction ms with
  | nil => rfl
  | cons e ms ih =>
      obtain ⟨k, v⟩ := e
      by_cases hk : k.same "$ref" = true
      · rw [traceSiblings, if_pos hk, ih, Members.erase, Members.erase,
          List.filter_cons_of_neg (by simp [hk])]
      · rw [traceSiblings, if_neg hk, ih, Members.erase, Members.erase,
          List.filter_cons_of_pos (by simp [hk]), traceMembers]

private theorem traceMembers_exists {ms : Members}
    (h : ∀ e ∈ ms, ∃ w, traceWith follow e.2 = .ok w) :
    ∃ ns, traceMembers follow ms = .ok ns := by
  obtain ⟨ns, hns⟩ :=
    Members.Aligned.exists_of_forall (fun _ v w => traceWith follow v = .ok w) h
  exact ⟨ns, traceMembers_iff.mpr hns⟩

/-- A walk has a result if every pointer that the value mentions can be followed. -/
theorem traceWith_exists {v : Value} (h : ∀ p, Mentions v p → ∃ t, follow p = .ok t) :
    ∃ t, traceWith follow v = .ok t := by
  induction v using Tree.parts_induction with
  | scalar s => exact ⟨_, rfl⟩
  | pair a b => exact ⟨_, rfl⟩
  | set names => exact ⟨_, rfl⟩
  | list xs ih =>
      have hitems : ∀ x ∈ xs, ∃ y, traceWith follow x = .ok y :=
        fun x hx => ih x hx fun p hp => h p (mentions_list.mpr ⟨x, hx, hp⟩)
      have hall : ∃ ys, traceItems follow xs = .ok ys := by
        clear h ih
        induction xs with
        | nil => exact ⟨[], rfl⟩
        | cons x xs ih =>
            obtain ⟨y, hy⟩ := hitems x (by simp)
            obtain ⟨ys, hys⟩ := ih fun x' hx' => hitems x' (by simp [hx'])
            exact ⟨y :: ys, traceItems_iff.mpr (.cons hy (traceItems_iff.mp hys))⟩
      obtain ⟨ys, hys⟩ := hall
      exact ⟨.list ys, by rw [traceWith, hys, ok_bind, pure_eq_ok]⟩
  | marked mark ms ih =>
      have hmembers : ∀ e ∈ ms, ∃ w, traceWith follow e.2 = .ok w :=
        fun e he => ih e he fun p hp => h p (mentions_object.mpr (.inr ⟨e, he, hp⟩))
      obtain ⟨t, ht⟩ : ∃ t, tracedTarget follow ms = .ok t := by
        unfold tracedTarget
        split
        · rename_i p hget
          exact h p (mentions_object.mpr (.inl hget))
        · exact ⟨_, rfl⟩
      obtain ⟨ns, hns⟩ := traceMembers_exists hmembers
      obtain ⟨siblings, hsiblings⟩ :=
        traceMembers_exists fun e (he : e ∈ Members.erase "$ref" ms) =>
          hmembers e (Members.mem_erase he)
      rw [← traceSiblings_eq] at hsiblings
      rw [traceWith, ht, ok_bind]
      cases t with
      | held => exact ⟨_, rfl⟩
      | missing =>
          dsimp only
          exact ⟨_, by rw [hns, ok_bind, pure_eq_ok]⟩
      | found w =>
          cases w with
          | marked place base =>
              dsimp only
              exact ⟨_, by rw [hsiblings, ok_bind, pure_eq_ok]⟩
          | _ => exact ⟨_, rfl⟩

/-- Every pointer of a traced value has a property that may depend on where its
object stands. -/
def PointersHave (G : Place → String → Prop) (t : TracedValue) : Prop :=
  ∀ place ms p, t.Within (.marked place ms) → Members.get? "$ref" ms = some (.str p) →
    G place p

variable {G : Place → String → Prop}

theorem pointersHave_list {xs : List TracedValue} :
    PointersHave G (.list xs) ↔ ∀ x ∈ xs, PointersHave G x := by
  constructor
  · intro h x hx place ms p hwithin hget
    exact h place ms p (.item hx hwithin) hget
  · intro h place ms p hwithin hget
    obtain ⟨x, hx, hwithin⟩ := Tree.within_list_marked.mp hwithin
    exact h x hx place ms p hwithin hget

theorem pointersHave_marked {place : Place} {ms : Tree.Members Place} :
    PointersHave G (.marked place ms) ↔
      (∀ p, Members.get? "$ref" ms = some (.str p) → G place p) ∧ ∀ e ∈ ms,
        PointersHave G e.2 := by
  constructor
  · intro h
    refine ⟨fun p hget => h place ms p (.here _) hget, ?_⟩
    rintro ⟨k, x⟩ he place' ms' p hwithin hget
    exact h place' ms' p (.member he hwithin) hget
  · rintro ⟨hown, hmembers⟩ place' ms' p hwithin hget
    rcases Tree.within_marked_marked.mp hwithin with ⟨rfl, rfl⟩ | ⟨e, he, hwithin⟩
    · exact hown p hget
    · exact hmembers e he place' ms' p hwithin hget

/-- Whatever property covers the pointers beneath a cut, the members of a held
object have it. -/
private theorem pointersHave_covered {ms : Members} (hbeneath : ∀ p, G .beneath p) :
    ∀ e ∈ Tree.mapMemberMarks (fun _ => Place.beneath) ms, PointersHave G e.2 := by
  intro e he place ns p hwithin _
  rw [Tree.mapMemberMarks_eq_map] at he
  obtain ⟨e', he', rfl⟩ := List.mem_map.mp he
  obtain ⟨-, -, -, rfl, -⟩ := Tree.within_of_mapMarks hwithin
  exact hbeneath p

/-- What stands under `$ref` after the members were traced is the pointer that
was there before. -/
private theorem ref_of_traceMembers {ms : Members} (htext : RefsAreText (.object ms))
    {ns : Tree.Members Place} (h : traceMembers follow ms = .ok ns) {p : String}
    (hget : Members.get? "$ref" ns = some (.str p)) :
    Members.get? "$ref" ms = some (.str p) := by
  obtain ⟨k, v, hk, hv, hvw⟩ := (traceMembers_iff.mp h).flip.get?_some hget
  obtain ⟨q, rfl⟩ := htext ms v (.here _) hv
  obtain rfl : q = p := by
    rw [traceWith, pure_eq_ok, Except.ok.injEq] at hvw
    injection hvw with hvw
    exact Scalar.str.inj hvw
  exact hv

/-- What a walk makes of an object. One whose pointer is held stays as it is, one that
has no pointer or whose pointer is missing keeps its place, and what is found for a
pointer takes the place of the object, with the members beside the pointer put into it
if it is an object itself. -/
private theorem traceWith_object_cases {ms : Members} {t : TracedValue}
    (h : traceWith follow (.object ms) = .ok t) :
    (∃ p, Members.get? "$ref" ms = some (.str p) ∧ follow p = .ok .held ∧
        t = .marked .outside (Tree.mapMemberMarks (fun _ => Place.beneath) ms)) ∨
      (∃ ns, (∀ p, Members.get? "$ref" ms = some (.str p) → follow p = .ok .missing) ∧
        traceMembers follow ms = .ok ns ∧ t = .marked .outside ns) ∨
      ∃ p w, Members.get? "$ref" ms = some (.str p) ∧ follow p = .ok (.found w) ∧
        (t = w ∨ ∃ place base siblings, w = .marked place base ∧
          traceMembers follow (Members.erase "$ref" ms) = .ok siblings ∧
          t = .marked place (Members.putAll base siblings)) := by
  obtain ⟨target, htarget, h⟩ := bind_eq_ok.mp h
  have hfollow : ∀ p, Members.get? "$ref" ms = some (.str p) →
      follow p = .ok target := by
    intro p hget
    rwa [tracedTarget, hget] at htarget
  -- without a pointer nothing is held and nothing is found
  have hpointer : target ≠ .missing → ∃ p, Members.get? "$ref" ms = some (.str p) := by
    intro hmissing
    unfold tracedTarget at htarget
    split at htarget
    · exact ⟨_, ‹_›⟩
    · exact absurd (Except.ok.inj htarget).symm hmissing
  cases target with
  | held =>
      obtain ⟨p, hget⟩ := hpointer (by simp)
      exact .inl ⟨p, hget, hfollow p hget, (Except.ok.inj h).symm⟩
  | missing =>
      obtain ⟨ns, hns, h⟩ := bind_eq_ok.mp h
      exact .inr (.inl ⟨ns, hfollow, hns, (Except.ok.inj h).symm⟩)
  | found w =>
      obtain ⟨p, hget⟩ := hpointer (by simp)
      refine .inr (.inr ⟨p, w, hget, hfollow p hget, ?_⟩)
      cases w with
      | marked place base =>
          obtain ⟨siblings, hsiblings, h⟩ := bind_eq_ok.mp h
          rw [traceSiblings_eq] at hsiblings
          exact .inr ⟨place, base, siblings, rfl, hsiblings, (Except.ok.inj h).symm⟩
      | _ => exact .inl (Except.ok.inj h).symm

/-- Members among which there is no pointer may be put into an object: the pointer of
the object itself stays. -/
private theorem pointersHave_putAll {place : Place} {base others : Tree.Members Place}
    (hbase : PointersHave G (.marked place base))
    (hnoRef : Members.get? "$ref" others = none)
    (hothers : ∀ e ∈ others, PointersHave G e.2) :
    PointersHave G (.marked place (Members.putAll base others)) := by
  obtain ⟨hown, hmembers⟩ := pointersHave_marked.mp hbase
  refine pointersHave_marked.mpr ⟨fun p hget => ?_, fun e he => ?_⟩
  · rw [Members.get?_putAll_of_absent (.whole _) hnoRef] at hget
    exact hown p hget
  · rcases Members.mem_putAll he with he | ⟨o, ho, hval, -⟩
    · exact hmembers e he
    · rw [hval]
      exact hothers o ho

/-- A walk gives the pointers that it leaves a property, if it has it of those that are
held and missing and gets it with what is found. -/
theorem traceWith_pointersHave {v : Value} {t : TracedValue}
    (h : traceWith follow v = .ok t) (htext : RefsAreText v) (hheld : ∀ p,
      Mentions v p → follow p = .ok .held → G .outside p ∧ ∀ q, G .beneath q)
    (hmissing : ∀ p, Mentions v p → follow p = .ok .missing → G .outside p)
    (hfound : ∀ p w, Mentions v p → follow p = .ok (.found w) → PointersHave G w) :
    PointersHave G t := by
  induction v using Tree.parts_induction generalizing t with
  | scalar s =>
      obtain rfl := Except.ok.inj h
      intro place ms p hwithin
      simp at hwithin
  | pair a b =>
      obtain rfl := Except.ok.inj h
      intro place ms p hwithin
      simp at hwithin
  | set names =>
      obtain rfl := Except.ok.inj h
      intro place ms p hwithin
      simp at hwithin
  | list xs ih =>
      obtain ⟨ys, hys, h⟩ := bind_eq_ok.mp h
      obtain rfl := Except.ok.inj h
      refine pointersHave_list.mpr fun y hy => ?_
      obtain ⟨x, hx, hxy⟩ : ∃ x ∈ xs, traceWith follow x = .ok y :=
        exists_of_mem_mapM (mapM_eq_ok_iff.mpr (traceItems_iff.mp hys)) hy
      have hmentions := fun p (hp : Mentions x p) => mentions_list.mpr ⟨x, hx, hp⟩
      exact ih x hx hxy (htext.item x hx) (fun p hp => hheld p (hmentions p hp))
        (fun p hp => hmissing p (hmentions p hp)) fun p w hp =>
          hfound p w (hmentions p hp)
  | marked mark ms ih =>
      have hmembers : ∀ {some : Members} {ns : Tree.Members Place},
          (∀ e ∈ some, e ∈ ms) →
          traceMembers follow some = .ok ns → ∀ e ∈ ns, PointersHave G e.2 := by
        intro some ns hsub hns e he
        obtain ⟨x, hx, hxw⟩ := (traceMembers_iff.mp hns).mem_right he
        have hmem := hsub _ hx
        have hmentions := fun p (hp : Mentions x p) =>
          mentions_object.mpr (.inr ⟨_, hmem, hp⟩)
        exact ih _ hmem hxw (htext.member _ hmem) (fun p hp => hheld p (hmentions p hp))
          (fun p hp => hmissing p (hmentions p hp)) fun p w hp =>
            hfound p w (hmentions p hp)
      have hown : ∀ p, Members.get? "$ref" ms = some (.str p) →
          Mentions (.object ms) p :=
        fun p hget => mentions_object.mpr (.inl hget)
      rcases traceWith_object_cases h with
        ⟨p, hget, hfollow, rfl⟩ | ⟨ns, hfollow, hns, rfl⟩
          | ⟨p, w, hget, hfollow, htarget⟩
      · obtain ⟨hcut, hbeneath⟩ := hheld p (hown p hget) hfollow
        refine pointersHave_marked.mpr ⟨fun q hq => ?_, pointersHave_covered hbeneath⟩
        rw [Members.get?_mapMemberMarks, hget] at hq
        injection hq with hq
        injection hq with hq
        rwa [← Scalar.str.inj hq]
      · refine pointersHave_marked.mpr ⟨fun p hp => ?_, hmembers (fun _ he => he) hns⟩
        have hget := ref_of_traceMembers htext hns hp
        exact hmissing p (hown p hget) (hfollow p hget)
      · have hw := hfound p w (hown p hget) hfollow
        rcases htarget with rfl | ⟨place, base, siblings, rfl, hsiblings, rfl⟩
        · exact hw
        · exact pointersHave_putAll hw ((traceMembers_iff.mp hsiblings).get?_none
            (by simp)) (hmembers (fun _ he => Members.mem_erase he) hsiblings)

end

/-! ## Any depth -/

section

variable {root node : Value}

/-- What becomes of a pointer that is followed only if it is free. -/
theorem followTraced_cases {inner : List String → Value → Except Fault TracedValue}
    {free : List String} {p : String} {target : TracedTarget}
    (h : followTraced root inner free p = .ok target) :
    (p ∉ free ∧ target = .held) ∨
      p ∈ free ∧
        ((target = .missing ∧ resolve (.str p) root = .ok .null) ∨
          ∃ v w, resolve (.str p) root = .ok v ∧
            inner (free.filter (· != p)) v = .ok w ∧ target = .found w) := by
  unfold followTraced at h
  split at h
  · rename_i hfree
    refine .inr ⟨List.contains_iff_mem.mp hfree, ?_⟩
    obtain ⟨once, honce, h⟩ := bind_eq_ok.mp h
    rcases followOnce_cases honce with ⟨rfl, hnull⟩ | ⟨v, rfl, hv⟩
    · exact .inl ⟨(Except.ok.inj h).symm, hnull⟩
    · obtain ⟨w, hw, h⟩ := bind_eq_ok.mp h
      exact .inr ⟨v, w, hv, hw, (Except.ok.inj h).symm⟩
  · rename_i hfree
    exact .inl ⟨fun hp => hfree (List.contains_iff_mem.mpr hp), (Except.ok.inj h).symm⟩

/-- An expansion has a result if every pointer that it may come to can be looked up. -/
theorem traceFrom_exists
    (hfound : ∀ p, Reached root node p → ∃ v, resolve (.str p) root = .ok v)
    (depth : Nat) (free : List String) {v : Value}
    (hreached : ∀ p, Mentions v p → Reached root node p) :
    ∃ t, traceFrom root depth free v = .ok t := by
  induction depth generalizing free v with
  | zero => exact traceWith_exists fun p _ => ⟨.held, rfl⟩
  | succ depth ih =>
      refine traceWith_exists fun p hp => ?_
      obtain ⟨found, hresolve⟩ := hfound p (hreached p hp)
      obtain ⟨w, hw⟩ := ih (free.filter (· != p)) (v := found) fun q hq =>
        (hreached p hp).next ⟨found, hresolve, hq⟩
      unfold followTraced followOnce
      rw [hresolve, ok_bind, pure_eq_ok]
      split
      · split
        · exact ⟨_, rfl⟩
        · exact ⟨.found w, by simp [hw]⟩
      · exact ⟨_, rfl⟩

/-- A pointer that is left leads nowhere or back to itself. Beneath a cut it may be any;
but then some pointer leads back to itself. -/
def Left (root node : Value) : Place → String → Prop
  | .outside, p =>
      resolve (.str p) root = .ok .null ∨
        (Reached root node p ∧ TransGen (LeadsTo root) p p)
  | .beneath, _ => ∃ p, Reached root node p ∧ TransGen (LeadsTo root) p p

private theorem left_of_open {free : List String}
    {v : Value} (hreached : ∀ p, Mentions v p → Reached root node p)
    (hopen : ∀ p, Reached root node p → p ∉ free → ∀ q, Mentions v q →
      TransGen (LeadsTo root) p q) {p : String} (hp : Mentions v p) (hfree : p ∉ free) :
    Left root node .outside p ∧ ∀ q, Left root node .beneath q := by
  have hcycle : TransGen (LeadsTo root) p p := hopen p (hreached p hp) hfree p hp
  exact ⟨.inr ⟨hreached p hp, hcycle⟩, fun _ => ⟨p, hreached p hp, hcycle⟩⟩

/-- The pointers that an expansion leaves lead nowhere or back to themselves if every
pointer that is not free leads to all pointers of the value, and the depth suffices for
those that are free. -/
theorem traceFrom_left {depth : Nat} {free : List String} {v : Value} {t : TracedValue}
    (h : traceFrom root depth free v = .ok t) (hroot : RefsAreText root)
    (htext : RefsAreText v)
    (hdepth : free.length ≤ depth) (hreached : ∀ p, Mentions v p → Reached root node p)
    (hopen : ∀ p, Reached root node p → p ∉ free → ∀ q, Mentions v q →
      TransGen (LeadsTo root) p q) :
    PointersHave (Left root node) t := by
  induction depth generalizing free v t with
  | zero =>
      have hfree : free = [] := List.length_eq_zero_iff.mp (by omega)
      refine traceWith_pointersHave h htext
        (fun p hp _ => left_of_open hreached hopen hp (by simp [hfree])) ?_ ?_
      · intro p _ hmissing
        simp at hmissing
      · intro p w _ hfound
        simp at hfound
  | succ depth ih =>
      refine traceWith_pointersHave h htext (fun p hp htarget => ?_)
        (fun p hp htarget => ?_) fun p w hp htarget => ?_
      · rcases followTraced_cases htarget with ⟨hfree, -⟩
          | ⟨-, ⟨hne, -⟩ | ⟨_, _, -, -, hne⟩⟩
        · exact left_of_open hreached hopen hp hfree
        · contradiction
        · contradiction
      · rcases followTraced_cases htarget with ⟨-, hne⟩
          | ⟨-, ⟨-, hnull⟩ | ⟨_, _, -, -, hne⟩⟩
        · contradiction
        · exact .inl hnull
        · contradiction
      · rcases followTraced_cases htarget with ⟨-, hne⟩
          | ⟨hfree, ⟨hne, -⟩ | ⟨found, w', hresolve, hw, heq⟩⟩
        · contradiction
        · contradiction
        · obtain rfl := TracedTarget.found.inj heq
          have hreached' : ∀ q, Mentions found q → Reached root node q :=
            fun q hq => (hreached p hp).next ⟨found, hresolve, hq⟩
          have hdepth' : (free.filter (· != p)).length ≤ depth := by
            have hshorter : (free.filter (· != p)).length < free.length :=
              List.length_filter_lt_length_iff_exists.mpr ⟨p, hfree, by simp⟩
            omega
          -- `p` is no longer free, and it leads to what is mentioned here in one step
          have hopen' : ∀ r, Reached root node r → r ∉ free.filter (· != p) →
              ∀ q, Mentions found q → TransGen (LeadsTo root) r q := by
            intro r hr hrfree q hq
            have hpq : LeadsTo root p q := ⟨found, hresolve, hq⟩
            by_cases hrp : r = p
            · exact hrp ▸ .single hpq
            · have hrfree : r ∉ free := fun hmem =>
                hrfree (List.mem_filter.mpr ⟨hmem, by simp [hrp]⟩)
              exact (hopen r hr hrfree p hp).tail hpq
          exact ih hw (refsAreText_of_resolve hroot hresolve) hdepth' hreached' hopen'

/-! ## Values without anything to expand -/

/-- A walk leaves a value as it is if nothing is found for the pointers in it. -/
theorem expandWith_fixed {follow : String → Except Fault Target} {v : Value}
    (h : ∀ p, Mentions v p → follow p = .ok .held ∨ follow p = .ok .missing) :
    expandWith follow v = .ok v := by
  induction v using Tree.parts_induction with
  | scalar s => rfl
  | pair a b => rfl
  | set names => rfl
  | list xs ih =>
      have hitems : ∀ x ∈ xs, expandWith follow x = .ok x :=
        fun x hx => ih x hx fun p hp => h p (mentions_list.mpr ⟨x, hx, hp⟩)
      have hall : expandItems follow xs = .ok xs := by
        clear h ih
        induction xs with
        | nil => rfl
        | cons x xs ih =>
            rw [expandItems, hitems x (by simp), ok_bind, ih fun y hy =>
              hitems y (by simp [hy]), ok_bind, pure_eq_ok]
      rw [expandWith, hall, ok_bind, pure_eq_ok]
  | marked mark ms ih =>
      have hvalues : ∀ e ∈ ms, expandWith follow e.2 = .ok e.2 :=
        fun e he => ih e he fun p hp => h p (mentions_object.mpr (.inr ⟨e, he, hp⟩))
      have hall : expandMembers follow ms = .ok ms := by
        clear h ih
        induction ms with
        | nil => rfl
        | cons e ms ih =>
            obtain ⟨k, x⟩ := e
            have hx : expandWith follow x = .ok x := hvalues (k, x) (by simp)
            rw [expandMembers, hx, ok_bind, ih fun e he => hvalues e (by simp [he]),
              ok_bind, pure_eq_ok]
      have htarget : target follow ms = .ok .held ∨
          target follow ms = .ok .missing := by
        unfold target
        split
        · rename_i p hget
          exact h p (mentions_object.mpr (.inl hget))
        · exact .inr rfl
      rw [expandWith]
      rcases htarget with htarget | htarget
      · rw [htarget, ok_bind, pure_eq_ok]
      · rw [htarget, ok_bind, hall, ok_bind, pure_eq_ok]

/-- An expansion leaves a value as it is if the pointers in it lead nowhere. -/
theorem expandFrom_fixed {depth : Nat} {free : List String} {v : Value}
    (h : ∀ p, Mentions v p → resolve (.str p) root = .ok .null) :
    expandFrom root depth free v = .ok v := by
  cases depth with
  | zero => exact expandWith_fixed fun p _ => .inl rfl
  | succ depth =>
      refine expandWith_fixed fun p hp => ?_
      unfold followOnce
      rw [h p hp, ok_bind, pure_eq_ok]
      split
      · exact .inr rfl
      · exact .inl rfl

/-! ## The whole expansion -/

/-- What stands under `$ref` in a traced value leads nowhere, or it is a text
that was left. -/
private theorem nowhere_or_left {traced : TracedValue}
    (h : PointersHave (Left root node) traced) {place : Place} {ms : Tree.Members Place}
    {w : TracedValue} (hwithin : traced.Within (.marked place ms))
    (hget : Members.get? "$ref" ms = some w) :
    resolve w.plain root = .ok .null ∨ ∃ p, w = .str p ∧ Left root node place p := by
  cases w with
  | scalar s =>
      cases s with
      | str p => exact .inr ⟨p, rfl, h place ms p hwithin hget⟩
      | _ => exact .inl rfl
  | _ => exact .inl rfl

/-- What is left under `$ref` by an expansion leads nowhere or back to itself, but for
what stands beneath a cut. If no pointer that is come to leads back to itself, all that
is left leads nowhere, and expanding once more changes nothing. -/
theorem expand_complete (hnode : RefsAreText node) (hroot : RefsAreText root)
    (hfound : ∀ p, Reached root node p → ∃ v, resolve (.str p) root = .ok v) :
    ∃ traced, trace node root = .ok traced ∧ expand node root = .ok traced.plain ∧
      (∀ ms w, traced.Within (.marked .outside ms) → Members.get? "$ref" ms = some w →
        resolve w.plain root = .ok .null ∨ ∃ p, w = .str p ∧
          TransGen (LeadsTo root) p p) ∧
      ((∀ p, Reached root node p → ¬ TransGen (LeadsTo root) p p) →
        (∀ ms w, traced.plain.Within (.object ms) → Members.get? "$ref" ms = some w →
          resolve w root = .ok .null) ∧
        expand traced.plain root = .ok traced.plain) := by
  have hreached : ∀ p, Mentions node p → Reached root node p := fun p hp =>
    ⟨p, hp, .refl⟩
  obtain ⟨traced, htraced⟩ :=
    traceFrom_exists hfound ((pointers node ++ pointers root).eraseDups).length
    ((pointers node ++ pointers root).eraseDups) hreached
  have hplain : expand node root = .ok traced.plain := by
    rw [← trace_plain, trace, htraced]
    rfl
  have hleft : PointersHave (Left root node) traced := by
    -- every pointer is free at first
    refine traceFrom_left htraced hroot hnode (Nat.le_refl _) hreached fun p hp hfree =>
      ?_
    exact absurd (List.mem_eraseDups.mpr (mem_pointers_of_reached hp)) hfree
  refine ⟨traced, htraced, hplain, ?_, ?_⟩
  · intro ms w hwithin hget
    rcases nowhere_or_left hleft hwithin hget with hnull | ⟨p, rfl, hnull | ⟨-, hcycle⟩⟩
    · exact .inl hnull
    · exact .inl hnull
    · exact .inr ⟨p, rfl, hcycle⟩
  · intro hacyclic
    have hnowhere : ∀ ms w, traced.plain.Within (.object ms) →
        Members.get? "$ref" ms = some w →
        resolve w root = .ok .null := by
      intro ms w hwithin hget
      obtain ⟨place, ns, htraced, -, rfl⟩ := Tree.within_of_mapMarks hwithin
      rw [Members.get?_mapMemberMarks] at hget
      obtain ⟨x, hx, rfl⟩ := Option.map_eq_some_iff.mp hget
      rcases nowhere_or_left hleft htraced hx with hnull | ⟨p, rfl, hp⟩
      · exact hnull
      · cases place with
        | outside =>
            rcases hp with hnull | ⟨hp, hcycle⟩
            · exact hnull
            · exact absurd hcycle (hacyclic p hp)
        | beneath =>
            obtain ⟨q, hq, hcycle⟩ := hp
            exact absurd hcycle (hacyclic q hq)
    exact ⟨hnowhere, expandFrom_fixed fun p ⟨ms, hwithin, hget⟩ =>
      hnowhere ms _ hwithin hget⟩

end

/-- A document with one thing in it that a pointer can lead to, and no pointers. -/
def plainRoot : Value :=
  .object [("a", .object [("type", .str "string")])]

/-- A value with a pointer in a pair. -/
def pairedNode : Value :=
  .list [.pair (.str "a") (.object [("$ref", .str "#/a")])]

private theorem ref_of_pairedNode {ms : Members} (h : pairedNode.Holds (.object ms)) :
    ms = [(.str "$ref", .str "#/a")] := by
  cases h with
  | item hx h =>
      obtain rfl := List.mem_singleton.mp hx
      cases h with
      | first h => cases h
      | second h =>
          cases h with
          | here => rfl
          | name hk h =>
              obtain ⟨rfl, -⟩ := Prod.ext_iff.mp (List.mem_singleton.mp hk)
              cases h
          | member hk h =>
              obtain ⟨-, rfl⟩ := Prod.ext_iff.mp (List.mem_singleton.mp hk)
              cases h

private theorem noRef_of_plainRoot {ms : Members} (h : plainRoot.Holds (.object ms)) :
    Members.get? "$ref" ms = none := by
  cases h with
  | here => rfl
  | name hk h =>
      obtain ⟨rfl, -⟩ := Prod.ext_iff.mp (List.mem_singleton.mp hk)
      cases h
  | member hk h =>
      obtain ⟨-, rfl⟩ := Prod.ext_iff.mp (List.mem_singleton.mp hk)
      cases h with
      | here => rfl
      | name hk h =>
          obtain ⟨rfl, -⟩ := Prod.ext_iff.mp (List.mem_singleton.mp hk)
          cases h
      | member hk h =>
          obtain ⟨-, rfl⟩ := Prod.ext_iff.mp (List.mem_singleton.mp hk)
          cases h

/-- A pointer in a pair is left although it leads somewhere. It is the only one there
is. -/
theorem expand_skips_pairs :
    (∀ ms, pairedNode.Holds (.object ms) → ∀ w, Members.get? "$ref" ms = some w →
      w = .str "#/a") ∧
      (∀ ms, plainRoot.Holds (.object ms) → Members.get? "$ref" ms = none) ∧
      resolve (.str "#/a") plainRoot = .ok (.object [("type", .str "string")]) ∧
      expand pairedNode plainRoot = .ok pairedNode ∧
      ∃ ms, pairedNode.Holds (.object ms) ∧
        Members.get? "$ref" ms = some (.str "#/a") := by
  refine ⟨fun ms hms w hget => ?_, fun ms hms => noRef_of_plainRoot hms, rfl, rfl,
    [(.str "$ref", .str "#/a")], .item (List.mem_singleton.mpr rfl)
    (.second (.here _)), rfl⟩
  rw [ref_of_pairedNode hms] at hget
  exact (Option.some.inj hget).symm

/-- A document in which one pointer leads to another. -/
def chainedRoot : Value :=
  .object [("a", .object [("$ref", .str "#/b"), ("title", .str "A")]),
    ("b", .object [("type", .str "string")])]

/-- A value with a pointer to be followed twice and one that leads nowhere. -/
def chainedNode : Value :=
  .object
    [("items", .list [.object [("$ref", .str "#/a")], .object [("$ref", .str "#/c")]])]

private theorem reached_of_chained {p : String}
    (h : Reached chainedRoot chainedNode p) :
    p = "#/a" ∨ p = "#/c" ∨ p = "#/b" := by
  have hmem : p ∈ ["#/a", "#/c", "#/b"] := mem_pointers_of_reached h
  simpa using hmem

private theorem leadsTo_of_chained {p q : String}
    (hp : p = "#/a" ∨ p = "#/c" ∨ p = "#/b") (h : LeadsTo chainedRoot p q) :
    p = "#/a" ∧ q = "#/b" := by
  obtain ⟨v, hv, hq⟩ := h
  rw [← mem_pointers_iff] at hq
  rcases hp with rfl | rfl | rfl
  · obtain rfl : .object [("$ref", .str "#/b"), ("title", .str "A")] = v :=
      Except.ok.inj hv
    have hmem : q ∈ ["#/b"] := hq
    exact ⟨rfl, by simpa using hmem⟩
  · obtain rfl : .null = v := Except.ok.inj hv
    simp [pointers] at hq
  · obtain rfl : .object [("type", .str "string")] = v := Except.ok.inj hv
    have hmem : q ∈ [] := hq
    simp at hmem

/-- The pointers of the value and the document lead to one another but not back to
themselves; so the one that leads somewhere is replaced, with the title beside the
pointer it leads to, and the other one stays. -/
theorem expand_complete_of_chained :
    ∃ expanded, expand chainedNode chainedRoot = .ok expanded ∧
      expanded = .object [("items", .list [.object [("type", .str "string"),
        ("title", .str "A")], .object [("$ref", .str "#/c")]])] ∧
      (∀ ms w, expanded.Within (.object ms) → Members.get? "$ref" ms = some w →
        resolve w chainedRoot = .ok .null) ∧
      expand expanded chainedRoot = .ok expanded := by
  have hnode : RefsAreText chainedNode := by
    intro ms w hwithin hget
    simp only [chainedNode, Tree.within_marked_marked, Tree.within_list_marked,
      List.mem_cons, List.not_mem_nil, or_false, exists_eq_or_imp, exists_eq_left,
      Tree.not_within_scalar_marked, true_and] at hwithin
    rcases hwithin with rfl | rfl | rfl
    · simp [Members.get?_cons, Members.get?_nil] at hget
    · exact ⟨"#/a", (Option.some.inj hget).symm⟩
    · exact ⟨"#/c", (Option.some.inj hget).symm⟩
  have hroot : RefsAreText chainedRoot := by
    intro ms w hwithin hget
    simp only [chainedRoot, Tree.within_marked_marked, List.mem_cons, List.not_mem_nil,
      or_false, exists_eq_or_imp, exists_eq_left, Tree.not_within_scalar_marked,
        true_and] at hwithin
    rcases hwithin with rfl | rfl | rfl
    · simp [Members.get?_cons, Members.get?_nil] at hget
    · exact ⟨"#/b", (Option.some.inj hget).symm⟩
    · simp [Members.get?_cons, Members.get?_nil] at hget
  have hfound : ∀ p, Reached chainedRoot chainedNode p →
      ∃ v, resolve (.str p) chainedRoot = .ok v := by
    intro p hp
    rcases reached_of_chained hp with rfl | rfl | rfl <;> exact ⟨_, rfl⟩
  have hacyclic : ∀ p, Reached chainedRoot chainedNode p →
      ¬ TransGen (LeadsTo chainedRoot) p p := by
    intro p hp hcycle
    obtain ⟨q, hpq, hqp⟩ := TransGen.head'_iff.mp hcycle
    obtain ⟨rfl, rfl⟩ := leadsTo_of_chained (reached_of_chained hp) hpq
    obtain heq | ⟨r, hbr, -⟩ := hqp.cases_head
    · simp at heq
    · obtain ⟨heq, -⟩ := leadsTo_of_chained (.inr (.inr rfl)) hbr
      simp at heq
  obtain ⟨traced, -, hexpand, -, hcomplete⟩ := expand_complete hnode hroot hfound
  obtain ⟨hnowhere, hagain⟩ := hcomplete hacyclic
  exact ⟨_, hexpand, Except.ok.inj (hexpand.symm.trans rfl), hnowhere, hagain⟩

end ApiWorkbench.Reference
