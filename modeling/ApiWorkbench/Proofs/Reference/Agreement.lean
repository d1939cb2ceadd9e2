import ApiWorkbench.Proofs.Reference.Expansion

/-!
# What an expansion depends on

The expansion of a value depends on the document only through the pointers that can be
reached from the value. Neither the pointers that may be followed nor the depth matters,
as long as there are enough of both: that is why the parts of a value are expanded like
values of their own.

An expansion holds the pointers back that it is inside of. Two expansions of a value are
the same if they hold back the same of the pointers that can be reached from it, and
that is the invariant of the induction on the depth.

## Main results

* `expand_agree`: two documents in which the pointers that can be reached lead to the
  same expand a value alike.
* `expand_succeeds`: a value has an expansion if the pointers that can be reached
  can be looked up.
* `expand_eq`: the expansion of a value, by what becomes of the pointers in it.
* `expand_list_iff`, `expand_object_lookup`: the expansion of a list and of an object,
  by those of their parts.
-/

namespace ApiWorkbench.Reference

open Relation

/-! ## One walk -/

section

variable {f g : String → Except Fault Target}

private theorem expandItems_congr {xs : List Value}
    (h : ∀ x ∈ xs, expandWith f x = expandWith g x) :
    expandItems f xs = expandItems g xs := by
  induction xs with
  | nil => rfl
  | cons x xs ih =>
      rw [expandItems, expandItems, h x (by simp), ih fun y hy => h y (by simp [hy])]

private theorem expandMembers_congr {ms : Members}
    (h : ∀ e ∈ ms, expandWith f e.2 = expandWith g e.2) :
    expandMembers f ms = expandMembers g ms := by
  induction ms with
  | nil => rfl
  | cons e ms ih =>
      obtain ⟨k, v⟩ := e
      have hv : expandWith f v = expandWith g v := h (k, v) (by simp)
      rw [expandMembers, expandMembers, hv, ih fun e he => h e (by simp [he])]

/-- The members beside a pointer are those that are left when it is taken away. -/
theorem expandSiblings_eq (ms : Members) :
    expandSiblings f ms = expandMembers f (Members.erase "$ref" ms) := by
  induction ms with
  | nil => rfl
  | cons e ms ih =>
      obtain ⟨k, v⟩ := e
      by_cases hk : k.same "$ref" = true
      · rw [expandSiblings, if_pos hk, ih, Members.erase, Members.erase,
          List.filter_cons_of_neg (by simp [hk])]
      · rw [expandSiblings, if_neg hk, ih, Members.erase, Members.erase,
          List.filter_cons_of_pos (by simp [hk]), expandMembers]

/-- A walk depends only on what becomes of the pointers that the value mentions. -/
theorem expandWith_congr {v : Value} (h : ∀ p, Mentions v p → f p = g p) :
    expandWith f v = expandWith g v := by
  induction v using Tree.parts_induction with
  | scalar s => rfl
  | pair a b => rfl
  | set names => rfl
  | list xs ih =>
      rw [expandWith, expandWith,
        expandItems_congr fun x hx => ih x hx fun p hp =>
          h p (mentions_list.mpr ⟨x, hx, hp⟩)]
  | marked mark ms ih =>
      have hmembers : ∀ e ∈ ms, expandWith f e.2 = expandWith g e.2 :=
        fun e he => ih e he fun p hp => h p (mentions_object.mpr (.inr ⟨e, he, hp⟩))
      have htarget : target f ms = target g ms := by
        unfold target
        split
        · rename_i p hget
          exact h p (mentions_object.mpr (.inl hget))
        · rfl
      rw [expandWith, expandWith, htarget, expandMembers_congr hmembers,
        expandSiblings_eq, expandSiblings_eq, expandMembers_congr fun e he =>
        hmembers e (Members.mem_erase he)]

theorem expandItems_iff {xs ys : List Value} :
    expandItems f xs = .ok ys ↔
      List.Forall₂ (fun x y => expandWith f x = .ok y) xs ys := by
  induction xs generalizing ys with
  | nil => simp [expandItems, eq_comm]
  | cons x xs ih =>
      rw [expandItems, bind_eq_ok]
      constructor
      · rintro ⟨y, hy, hrest⟩
        obtain ⟨zs, hzs, heq⟩ := bind_eq_ok.mp hrest
        obtain rfl := Except.ok.inj heq
        exact .cons hy (ih.mp hzs)
      · intro h
        cases h with
        | cons hy hzs => exact ⟨_, hy, bind_eq_ok.mpr ⟨_, ih.mpr hzs, rfl⟩⟩

theorem expandMembers_iff {ms ns : Members} :
    expandMembers f ms = .ok ns ↔
      Members.Aligned (fun _ v w => expandWith f v = .ok w) ms ns := by
  induction ms generalizing ns with
  | nil => simp [expandMembers, Members.Aligned, eq_comm]
  | cons e ms ih =>
      obtain ⟨k, v⟩ := e
      rw [expandMembers, bind_eq_ok]
      constructor
      · rintro ⟨w, hw, hrest⟩
        obtain ⟨others, hothers, heq⟩ := bind_eq_ok.mp hrest
        obtain rfl := Except.ok.inj heq
        exact .cons ⟨rfl, hw⟩ (ih.mp hothers)
      · intro h
        cases h with
        | @cons _ e' _ others he hothers =>
            obtain ⟨k', w⟩ := e'
            obtain ⟨rfl, hw⟩ := he
            exact ⟨w, hw, bind_eq_ok.mpr ⟨others, ih.mpr hothers, rfl⟩⟩

end

/-! ## Any depth -/

section

variable {root root' : Value}

/-- What becomes of a pointer in an expansion to a depth that follows only
pointers among `free`. -/
def followFrom (root : Value) :
    (depth : Nat) → (free : List String) → String → Except Fault Target
  | 0, _, _ => pure .held
  | depth + 1, free, pointer => do
    if free.contains pointer then
      match ← followOnce root pointer with
      | .found next => do
        pure (.found (← expandFrom root depth (free.filter (· != pointer)) next))
      | other => pure other
    else pure .held

theorem expandFrom_eq (depth : Nat) (free : List String) (v : Value) :
    expandFrom root depth free v = expandWith (followFrom root depth free) v := by
  cases depth with
  | zero => rfl
  | succ depth => rfl

theorem followFrom_of_not_free {p : String} {free : List String} (hp : p ∉ free)
    (depth : Nat) :
    followFrom root depth free p = .ok .held := by
  cases depth with
  | zero => rfl
  | succ depth => rw [followFrom, if_neg (by simpa using hp), pure_eq_ok]

/-- The pointers that can be reached from a value lead to the same in both documents. -/
def AgreeFrom (root root' v : Value) : Prop :=
  ∀ p, Reached root v p → resolve (.str p) root' = resolve (.str p) root

theorem AgreeFrom.refl (root v : Value) : AgreeFrom root root v :=
  fun _ _ => rfl

theorem Reached.of_mentions {v : Value} {p : String} (h : Mentions v p) :
    Reached root v p :=
  ⟨p, h, .refl⟩

/-- What can be reached from where a pointer leads can be reached from where the
pointer stands. -/
theorem Reached.of_resolve {v next : Value} {p q : String} (hp : Reached root v p)
    (hnext : resolve (.str p) root = .ok next) (hq : Reached root next q) :
    Reached root v q := by
  obtain ⟨first, hfirst, hpath⟩ := hq
  obtain ⟨start, hstart, hsteps⟩ := hp
  exact ⟨start, hstart, (hsteps.tail ⟨next, hnext, hfirst⟩).trans hpath⟩

theorem Reached.mono {v w : Value} {p : String} (h : ∀ q, Mentions v q → Mentions w q)
    (hp : Reached root v p) :
    Reached root w p := by
  obtain ⟨first, hfirst, hpath⟩ := hp
  exact ⟨first, h first hfirst, hpath⟩

/-- Pointers that lead to the same lead to the same ones. -/
theorem AgreeFrom.reached {v : Value} (h : AgreeFrom root root' v) {p : String}
    (hp : Reached root v p) :
    Reached root' v p := by
  obtain ⟨first, hfirst, hpath⟩ := hp
  induction hpath with
  | refl => exact .of_mentions hfirst
  | @tail b c hab hbc ih =>
      obtain ⟨found, hfound, hmentions⟩ := hbc
      exact ih.next ⟨found, (h b ⟨first, hfirst, hab⟩).trans hfound, hmentions⟩

/-- Expansions that may follow the same of the pointers that can be reached are the
same, in documents where these lead to the same. -/
theorem expandFrom_congr {depth depth' : Nat}
    {free free' : List String} {v : Value} (hagree : AgreeFrom root root' v)
    (hdepth : free.length ≤ depth) (hdepth' : free'.length ≤ depth')
    (hfree : ∀ p, Reached root v p → (p ∈ free ↔ p ∈ free')) :
    expandFrom root depth free v = expandFrom root' depth' free' v := by
  induction depth generalizing depth' free free' v with
  | zero =>
      obtain rfl := List.length_eq_zero_iff.mp (Nat.le_zero.mp hdepth)
      rw [expandFrom_eq, expandFrom_eq]
      refine expandWith_congr fun p hp => ?_
      have hheld : p ∉ free' := fun hp' =>
        List.not_mem_nil ((hfree p (.of_mentions hp)).mpr hp')
      rw [followFrom_of_not_free List.not_mem_nil, followFrom_of_not_free hheld]
  | succ depth ih =>
      rw [expandFrom_eq, expandFrom_eq]
      refine expandWith_congr fun p hp => ?_
      have hreached : Reached root v p := .of_mentions hp
      by_cases hpfree : p ∈ free
      · have hpfree' := (hfree p hreached).mp hpfree
        cases depth' with
        | zero =>
            have hlength := List.length_pos_of_mem hpfree'
            omega
        | succ depth' =>
            have honce : followOnce root' p = followOnce root p := by
              unfold followOnce
              rw [hagree p hreached]
            rw [followFrom, followFrom, if_pos (List.contains_iff_mem.mpr hpfree),
              if_pos (List.contains_iff_mem.mpr hpfree'), honce]
            cases hcase : followOnce root p with
            | error fault => rfl
            | ok t =>
                rcases followOnce_cases hcase with ⟨rfl, -⟩ | ⟨next, rfl, hnext⟩
                · rfl
                · have hlength : (free.filter (· != p)).length < free.length :=
                    List.length_filter_lt_length_iff_exists.mpr ⟨p, hpfree, by simp⟩
                  have hlength' : (free'.filter (· != p)).length < free'.length :=
                    List.length_filter_lt_length_iff_exists.mpr ⟨p, hpfree', by simp⟩
                  have hsame : expandFrom root depth (free.filter (· != p)) next =
                      expandFrom root' depth' (free'.filter (· != p)) next :=
                    ih (fun q hq => hagree q (hreached.of_resolve hnext hq)) (by omega)
                        (by omega) fun q hq => by
                      simp [hfree q (hreached.of_resolve hnext hq)]
                  simp only [ok_bind, hsame]
      · have hpfree' : p ∉ free' := fun hp' => hpfree ((hfree p hreached).mpr hp')
        rw [followFrom_of_not_free hpfree, followFrom_of_not_free hpfree']

/-- Any expansion that may follow all pointers that can be reached is the
expansion of the value. -/
theorem expandFrom_eq_expand {depth : Nat} {free : List String}
    {v : Value} (hagree : AgreeFrom root root' v) (hdepth : free.length ≤ depth)
    (hfree : ∀ p, Reached root v p → p ∈ free) :
    expandFrom root depth free v = expand v root' := by
  refine expandFrom_congr hagree hdepth (Nat.le_refl _) fun p hp =>
    ⟨fun _ => ?_, fun _ => hfree p hp⟩
  rw [List.mem_eraseDups]
  exact mem_pointers_of_reached (hagree.reached hp)

/-- The expansion of a value depends only on where the pointers lead that can be
reached from it. -/
theorem expand_agree {v : Value} (hagree : AgreeFrom root root' v) :
    expand v root' = expand v root := by
  refine (expandFrom_eq_expand hagree (Nat.le_refl _) fun p hp => ?_).symm
  rw [List.mem_eraseDups]
  exact mem_pointers_of_reached hp

/-- A value has an expansion if every pointer that can be reached from it can be looked
up. -/
theorem expand_succeeds {v : Value}
    (h : ∀ p, Reached root v p → ∃ found, resolve (.str p) root = .ok found) :
    Succeeds (expand v root) := by
  obtain ⟨t, ht⟩ := traceFrom_exists h _ _ fun p hp => .of_mentions hp
  rw [← trace_plain, succeeds_map]
  exact ⟨t, ht⟩

/-! ## The expansion of the parts of a value -/

/-- What becomes of a pointer in the expansion of a value. -/
def followed (root : Value) (pointer : String) : Except Fault Target := do
  match ← followOnce root pointer with
  | .found next => do
    pure (.found (← expandFrom root (pointers root).length
      ((pointers root).filter (· != pointer)) next))
  | other => pure other

/-- Nothing is held back where the expansion of a value begins. -/
theorem followed_ne_held {p : String} {t : Target} (h : followed root p = .ok t) :
    t ≠ .held := by
  obtain ⟨once, honce, h⟩ := bind_eq_ok.mp h
  rcases followOnce_cases honce with ⟨rfl, -⟩ | ⟨next, rfl, -⟩
  · obtain rfl := Except.ok.inj h
    simp
  · obtain ⟨w, -, h⟩ := bind_eq_ok.mp h
    obtain rfl := Except.ok.inj h
    simp

/-- The expansion of a value walks it once. -/
theorem expand_eq (v : Value) : expand v root = expandWith (followed root) v := by
  rw [expand, expandFrom_eq]
  refine expandWith_congr fun p hp => ?_
  have hreached : Reached root v p := .of_mentions hp
  have hfree : ∀ q, Reached root v q →
      q ∈ (pointers v ++ pointers root).eraseDups := fun q hq => by
    rw [List.mem_eraseDups]
    exact mem_pointers_of_reached hq
  generalize (pointers v ++ pointers root).eraseDups = free at hfree
  obtain ⟨depth, hdepth⟩ := Nat.exists_eq_succ_of_ne_zero
    (Nat.ne_of_gt (List.length_pos_of_mem (hfree p hreached)))
  rw [hdepth, followFrom, if_pos (List.contains_iff_mem.mpr (hfree p hreached)),
    followed]
  cases hcase : followOnce root p with
  | error fault => rfl
  | ok t =>
      rcases followOnce_cases hcase with ⟨rfl, -⟩ | ⟨next, rfl, hnext⟩
      · rfl
      · have hlength : (free.filter (· != p)).length < free.length :=
          List.length_filter_lt_length_iff_exists.mpr ⟨p, hfree p hreached, by simp⟩
        -- what can be reached from a part of the document is mentioned in the document
        have hroot : ∀ q, Reached root next q → q ∈ pointers root := fun q hq => by
          rcases List.mem_append.mp (mem_pointers_of_reached hq) with hmem | hmem
          · exact mem_pointers_iff.mpr
              (mentions_of_leadsTo ⟨next, hnext, mem_pointers_iff.mp hmem⟩)
          · exact hmem
        have hsame : expandFrom root depth (free.filter (· != p)) next =
            expandFrom root (pointers root).length
              ((pointers root).filter (· != p)) next :=
          expandFrom_congr (AgreeFrom.refl root next) (by omega)
              (List.length_filter_le _ _) fun q hq => by
            simp [hfree q (hreached.of_resolve hnext hq), hroot q hq]
        simp only [ok_bind, hsame]

/-- A list is expanded item by item. -/
theorem expand_list_iff {xs : List Value} {w : Value} :
    expand (.list xs) root = .ok w ↔ ∃ ys, w = .list ys ∧
      List.Forall₂ (fun x y => expand x root = .ok y) xs ys := by
  simp only [expand_eq, expandWith, bind_eq_ok, expandItems_iff]
  constructor
  · rintro ⟨ys, hys, h⟩
    exact ⟨ys, (Except.ok.inj h).symm, hys⟩
  · rintro ⟨ys, rfl, hys⟩
    exact ⟨ys, hys, rfl⟩

/-- The member of an object that makes it a reference, alone. -/
def referencePart (ms : Members) : Members :=
  match Members.get? "$ref" ms with
  | some pointer => [(.str "$ref", pointer)]
  | none => []

theorem get?_referencePart (name : String) (ms : Members) :
    Members.get? name (referencePart ms) =
      if name = "$ref" then Members.get? "$ref" ms else none := by
  unfold referencePart
  cases h : Members.get? "$ref" ms with
  | none => simp
  | some pointer =>
      by_cases hname : name = "$ref"
      · simp [Members.get?_cons, hname]
      · simp [Members.get?_cons, hname, Ne.symm hname]

theorem erase_referencePart (ms : Members) :
    Members.erase "$ref" (referencePart ms) = [] := by
  unfold referencePart
  split <;> rfl

theorem target_referencePart (f : String → Except Fault Target) (ms : Members) :
    target f (referencePart ms) = target f ms := by
  rw [target, target, get?_referencePart, if_pos rfl]

/-- The expansion of an object, by what becomes of its pointer. -/
inductive ObjectExpansion (root : Value) (ms : Members) : Target → Value → Prop where
  /-- without a pointer that leads somewhere, it is expanded member by member -/
  | members {es : Members}
      (hmembers : Members.Aligned (fun _ v w => expand v root = .ok w) ms es) :
    ObjectExpansion root ms .missing (.object es)
  /-- an object stands in its place, with what is beside the pointer -/
  | siblings {base others : Members}
    (hothers : Members.Aligned (fun _ v w => expand v root = .ok w)
      (Members.erase "$ref" ms) others) :
    ObjectExpansion root ms (.found (.object base))
      (.object (Members.putAll base others))
  /-- something else stands in its place -/
  | other {v : Value} (hv : v.isObject = false) : ObjectExpansion root ms (.found v) v

theorem expand_object_cases {ms : Members} {w : Value}
    (h : expand (.object ms) root = .ok w) :
    ∃ t, target (followed root) ms = .ok t ∧ ObjectExpansion root ms t w := by
  rw [expand_eq, expandWith] at h
  obtain ⟨t, ht, h⟩ := bind_eq_ok.mp h
  refine ⟨t, ht, ?_⟩
  have haligned : ∀ {ns es : Members}, expandMembers (followed root) ns = .ok es →
      Members.Aligned (fun _ v w => expand v root = .ok w) ns es := fun hes =>
    (expandMembers_iff.mp hes).imp fun _ v w hw => (expand_eq v).trans hw
  cases t with
  | held =>
      refine absurd rfl (?_ : Target.held ≠ .held)
      unfold target at ht
      split at ht
      · exact followed_ne_held ht
      · simp [pure_eq_ok] at ht
  | missing =>
      obtain ⟨es, hes, h⟩ := bind_eq_ok.mp h
      obtain rfl := Except.ok.inj h
      exact .members (haligned hes)
  | found v =>
      cases v with
      | marked mark base =>
          obtain ⟨others, hothers, h⟩ := bind_eq_ok.mp h
          obtain rfl := Except.ok.inj h
          rw [expandSiblings_eq] at hothers
          exact .siblings (haligned hothers)
      | _ =>
          obtain rfl := Except.ok.inj h
          exact .other rfl

/-- What an object refers to is an object if its expansion is one. -/
theorem exists_referencePart {ms es : Members}
    (h : expand (.object ms) root = .ok (.object es)) :
    ∃ base, expand (.object (referencePart ms)) root = .ok (.object base) := by
  obtain ⟨t, ht, hcases⟩ := expand_object_cases h
  rw [expand_eq, expandWith, target_referencePart, expandSiblings_eq,
    erase_referencePart, ht]
  cases hcases with
  | members hmembers =>
      have hreference : ∀ e ∈ referencePart ms, ∃ w,
          expandWith (followed root) e.2 = .ok w := by
        intro e he
        unfold referencePart at he
        cases hget : Members.get? "$ref" ms with
        | none => simp [hget] at he
        | some pointer =>
            obtain ⟨k, w, -, -, hw⟩ := hmembers.get?_some hget
            rw [hget, List.mem_singleton] at he
            exact ⟨w, by rw [he, ← expand_eq, hw]⟩
      obtain ⟨ns, hns⟩ := Members.Aligned.exists_of_forall
        (fun _ v w => expandWith (followed root) v = .ok w) hreference
      exact ⟨ns, by simp only [ok_bind, expandMembers_iff.mpr hns, pure_eq_ok]⟩
  | @siblings base _ hothers => exact ⟨base, rfl⟩
  | other hv => contradiction

/-- What an expanded object has under a name: the expansion of what was there, or else
what comes from the object that it refers to. -/
structure MemberExpansion (root : Value) (ms base es : Members) (name : String) :
    Prop where
  present : ∀ v, Members.get? (.str name) ms = some v →
    ∃ w, expand v root = .ok w ∧ Members.get? (.str name) es = some w
  absent : Members.get? (.str name) ms = none →
    Members.get? (.str name) es = Members.get? (.str name) base

/-- An object is expanded to one with the expansions of its members and what comes from
the object it refers to. -/
theorem expand_object_lookup {ms base : Members} {w : Value}
    (h : expand (.object ms) root = .ok w)
    (hbase : expand (.object (referencePart ms)) root = .ok (.object base))
    (hdistinct : (Members.names ms).Nodup) :
    ∃ es, w = .object es ∧ ∀ name : String, name ≠ "$ref" →
      MemberExpansion root ms base es name := by
  obtain ⟨t, ht, hcases⟩ := expand_object_cases h
  obtain ⟨t', ht', hcases'⟩ := expand_object_cases hbase
  rw [target_referencePart, ht] at ht'
  obtain rfl := Except.ok.inj ht'
  cases hcases with
  | @members es hmembers =>
      cases hcases' with
      | members hreference =>
          refine ⟨es, rfl, fun name hname => ⟨fun v hv => ?_, fun hnone => ?_⟩⟩
          · obtain ⟨k, w, -, hw, hR⟩ := hmembers.get?_some hv
            exact ⟨w, hR, hw⟩
          · rw [hmembers.get?_none hnone,
              hreference.get?_none (by rw [get?_referencePart, if_neg hname])]
  | @siblings next others hothers =>
      have hnext : base = next := by
        generalize hw' : Value.object base = w' at hcases'
        cases hcases' with
        | @siblings _ none hnone =>
            rw [erase_referencePart] at hnone
            obtain rfl := List.forall₂_nil_left_iff.mp hnone
            exact (Tree.marked.inj hw').2
        | other hv => contradiction
      subst hnext
      refine ⟨_, rfl, fun name hname => ?_⟩
      have herase : Members.get? name (Members.erase "$ref" ms) =
          Members.get? name ms := by
        rw [Members.get?_erase, if_neg hname]
      refine ⟨fun v hv => ?_, fun hnone => ?_⟩
      · obtain ⟨k, w, -, hw, hR⟩ := hothers.get?_some (herase.trans hv)
        refine ⟨w, hR, Members.get?_putAll_of_get? ?_ hw⟩
        rw [hothers.names_eq]
        exact hdistinct.sublist (List.Sublist.map _ List.filter_sublist)
      · exact Members.get?_putAll_of_absent (.whole _)
          (hothers.get?_none (herase.trans hnone))
  | other hv =>
      generalize hw' : Value.object base = w' at hcases'
      cases hcases' with
      | siblings _ => contradiction
      | other _ =>
          subst hw'
          contradiction

/-- Members that are expanded alike are the same in the end. -/
theorem MemberExpansion.valueAt_eq {ms ms' es es' base : Members} {name : String}
    (h : MemberExpansion root ms base es name)
    (h' : MemberExpansion root' ms' base es' name)
    (hget : Members.get? (.str name) ms' = Members.get? (.str name) ms)
    (hagree : AgreeFrom root root' (Members.valueAt (.str name) ms)) :
    Members.valueAt (.str name) es' = Members.valueAt (.str name) es := by
  cases hv : Members.get? (.str name) ms with
  | none =>
      rw [Members.valueAt, Members.valueAt, h.absent hv, h'.absent (hget.trans hv)]
  | some v =>
      obtain ⟨w, hw, hgetw⟩ := h.present v hv
      obtain ⟨w', hw', hgetw'⟩ := h'.present v (hget.trans hv)
      rw [Members.valueAt, hv, Option.getD_some] at hagree
      rw [expand_agree hagree, hw] at hw'
      rw [Members.valueAt, Members.valueAt, hgetw, hgetw', Except.ok.inj hw']

/-! ## Values that are no references -/

/-- An object that something else in the document stands for. -/
def IsReference (root v : Value) : Prop :=
  ∃ ms p found, v = .object ms ∧ Members.get? "$ref" ms = some (.str p) ∧
    resolve (.str p) root = .ok found ∧
    found ≠ .null

private theorem isReference_of_target {ms : Members} {v : Value}
    (h : target (followed root) ms = .ok (.found v)) :
    IsReference root (.object ms) := by
  unfold target at h
  split at h
  · rename_i p hp
    obtain ⟨once, honce, h⟩ := bind_eq_ok.mp h
    obtain ⟨found, hfound, hcase⟩ := bind_eq_ok.mp honce
    obtain rfl := Except.ok.inj hcase
    refine ⟨ms, p, found, rfl, hp, hfound, ?_⟩
    rintro rfl
    injection Except.ok.inj h
  · injection Except.ok.inj h

/-- An object that is no reference is expanded member by member. -/
theorem expand_object_of_not_reference {ms : Members} {w : Value}
    (href : ¬ IsReference root (.object ms)) (h : expand (.object ms) root = .ok w) :
    ∃ es, w = .object es ∧
      Members.Aligned (fun _ v w => expand v root = .ok w) ms es := by
  obtain ⟨t, ht, hcases⟩ := expand_object_cases h
  cases hcases with
  | members hmembers => exact ⟨_, rfl, hmembers⟩
  | siblings _ => exact absurd (isReference_of_target ht) href
  | other _ => exact absurd (isReference_of_target ht) href

theorem isBlank_of_expand {v w : Value} (href : ¬ IsReference root v)
    (h : expand v root = .ok w) :
    w.isBlank = v.isBlank := by
  cases v with
  | marked mark ms =>
      obtain ⟨es, rfl, hes⟩ := expand_object_of_not_reference href h
      cases hes <;> rfl
  | list xs =>
      obtain ⟨ys, rfl, hys⟩ := expand_list_iff.mp h
      cases hys <;> rfl
  | _ =>
      rw [expand_eq] at h
      obtain rfl := Except.ok.inj h
      rfl

/-- Leaves are expanded to themselves. -/
private theorem expand_leaves {xs : List Value} (h : ∀ x ∈ xs, ∃ s, x = .scalar s) :
    List.Forall₂ (fun x y => expand x root = .ok y) xs xs := by
  rw [List.forall₂_same]
  intro x hx
  obtain ⟨s, rfl⟩ := h x hx
  exact expand_eq _

/-- A value that lists its items where it is written; what a pair holds is
never looked at. -/
structure ListedAsWritten (root v : Value) : Prop where
  direct : ¬ IsReference root v
  noPair : ∀ a b, v ≠ .pair a b

theorem listedAsWritten_list (xs : List Value) : ListedAsWritten root (.list xs) where
  direct := by
    rintro ⟨ms, p, found, h, -⟩
    contradiction
  noPair a b h := nomatch h

/-- The items of a value are expanded one by one, if they are listed where it is
written. -/
theorem items_of_expand {v w : Value} {xs : List Value}
    (hlisted : ListedAsWritten root v) (h : expand v root = .ok w)
    (hxs : v.items = .ok xs) :
    ∃ ys, w.items = .ok ys ∧ List.Forall₂ (fun x y => expand x root = .ok y) xs ys := by
  obtain ⟨href, hpair⟩ := hlisted
  cases v with
  | list items =>
      obtain ⟨ys, rfl, hys⟩ := expand_list_iff.mp h
      obtain rfl := Except.ok.inj hxs
      exact ⟨ys, rfl, hys⟩
  | pair a b => exact absurd rfl (hpair a b)
  | marked mark ms =>
      obtain ⟨es, rfl, hes⟩ := expand_object_of_not_reference href h
      have hitems : (Value.object es).items = .ok xs := by
        have hnames := congrArg (List.map (Tree.scalar : Scalar → Value)) hes.names_eq
        rw [Members.names, Members.names, List.map_map, List.map_map] at hnames
        exact (congrArg Except.ok hnames).trans hxs
      exact ⟨xs, hitems, expand_leaves fun x hx =>
        Tree.scalar_of_mem_items hxs (by simp) hpair hx⟩
  | _ =>
      rw [expand_eq] at h
      obtain rfl := Except.ok.inj h
      exact ⟨xs, hxs, expand_leaves fun x hx =>
        Tree.scalar_of_mem_items hxs (by simp) hpair hx⟩

/-- The same for the items of what may be blank. -/
theorem itemsOrNone_of_expand {v w : Value}
    {xs : List Value} (hlisted : ListedAsWritten root v) (h : expand v root = .ok w)
    (hxs : v.itemsOrNone = .ok xs) :
    ∃ ys, w.itemsOrNone = .ok ys ∧
      List.Forall₂ (fun x y => expand x root = .ok y) xs ys := by
  rw [Tree.itemsOrNone] at hxs ⊢
  rw [isBlank_of_expand hlisted.direct h]
  split at hxs
  · obtain rfl := Except.ok.inj hxs
    exact ⟨[], if_pos ‹_›, .nil⟩
  · rw [if_neg ‹_›]
    exact items_of_expand hlisted h hxs

/-- What the items of a value mention, the value mentions. -/
theorem mentions_of_mem_itemsOrNone {v x : Value} {xs : List Value}
    (hpair : ∀ a b, v ≠ .pair a b) (hxs : v.itemsOrNone = .ok xs) (hx : x ∈ xs)
    {p : String} (hp : Mentions x p) : Mentions v p := by
  rw [Tree.itemsOrNone] at hxs
  split at hxs
  · obtain rfl := Except.ok.inj hxs
    contradiction
  · by_cases hlist : ∃ ys, v = .list ys
    · obtain ⟨ys, rfl⟩ := hlist
      obtain rfl := Except.ok.inj hxs
      exact mentions_list.mpr ⟨x, hx, hp⟩
    · obtain ⟨s, rfl⟩ := Tree.scalar_of_mem_items hxs (not_exists.mp hlist) hpair hx
      obtain ⟨ms, hms, -⟩ := hp
      simp at hms

end

end ApiWorkbench.Reference
