/-
# The leafwise law of the merge

Read along a key path, the merge is a three-way choice: where one side agrees with the base the
other side's value stands, where both sides agree the common value stands, and a conflict is
recorded exactly where all three differ and there is nothing left to descend into. Its two halves
alternate as the code does: `FieldsLaw` about two dictionaries under one path, `ValueLaw` about two
values.

Set fields have a formula of their own, so the law speaks about paths that pass through none of
them. Equality is Python's throughout.
-/

import DataViz.Versioning.Merge

namespace DataViz.Versioning

open List Option

open Json (EqBy? PyEq? valueAt valueAt_nil)

/-- The leafwise law at one path: the three value clauses and the conflict
clause, under a reading of equality. `recorded` says a conflict was recorded at
the path. -/
structure LeafwiseAt (leaf : Scalar → Scalar) (base ours theirs merged : Option Json)
    (recorded : Prop) (p : Path) : Prop where
  oursUnchanged : EqBy? leaf (valueAt ours p) (valueAt base p) →
    EqBy? leaf (valueAt merged p) (valueAt theirs p)
  theirsUnchanged : EqBy? leaf (valueAt theirs p) (valueAt base p) →
    EqBy? leaf (valueAt merged p) (valueAt ours p)
  agreed : EqBy? leaf (valueAt ours p) (valueAt theirs p) →
    EqBy? leaf (valueAt merged p) (valueAt ours p)
  conflicting : recorded ↔ Diverge leaf (valueAt base p) (valueAt ours p) (valueAt theirs p) ∧
      ¬ Mergeable (valueAt base p) (valueAt ours p) (valueAt theirs p)

def Avoids (setFields : List String) (p : Path) : Prop :=
  ∀ key ∈ p, key ∉ setFields

def BelowConflict (conflicts : List Conflict) (p : Path) : Prop :=
  ∃ c ∈ conflicts, c.path <+: p ∧ c.path ≠ p

/-- Every list found under a set field, at any depth, holds scalars only, so
that Python can put its items in a set. -/
def HashableSets (setFields : List String) (value : Option Json) : Prop :=
  ∀ (p : Path) (key : String) (items : List Json), key ∈ setFields →
    valueAt value (p ++ [key]) = some (.arr items) → ∀ x ∈ items, ∃ s, x = .scalar s

variable {setFields : List String} {onConflict : OnConflict}

variable {bv ov tv value : Option Json} {c : Conflict} {confs : List Conflict} {isSet : Bool}
  {path : Path}

theorem mergeValue_path_extends
    (h : mergeValue setFields onConflict bv ov tv isSet path = .ok (value, confs))
    (hc : c ∈ confs) : path <+: c.path := by
  induction hsize : sizeOf ov using Nat.strong_induction_on
    generalizing bv ov tv value isSet path confs with
  | _ n ih =>
    cases mergeValue_outcome h with
    | agree => simp at hc
    | onlyTheirs => simp at hc
    | onlyOurs => simp at hc
    | set => simp at hc
    | conflict =>
      obtain rfl : c = _ := by simpa using hc
      exact prefix_refl _
    | fields _ _ _ ho _ hfields =>
      obtain ⟨-, hconfs⟩ := mergeFields_ok hfields
      obtain ⟨key, v, cs, hkey, hmem⟩ := hconfs c hc
      subst ho
      have hbelow : path ++ [key] <+: c.path :=
        ih _ (hsize ▸ Json.sizeOf_get?_lt _ key) hkey hmem rfl
      exact (prefix_append path [key]).trans hbelow

variable {base ours theirs result : Payload} {key : String}

theorem mergeFields_conflict_iff
    (h : mergeFields setFields onConflict base ours theirs path = .ok (result, confs))
    {value : Option Json} {cs : List Conflict}
    (hkey : mergeValue setFields onConflict (base.get? key) (ours.get? key) (theirs.get? key)
      (key ∈ setFields) (path ++ [key]) = .ok (value, cs)) :
    c ∈ cs ↔ c ∈ confs ∧ path ++ [key] <+: c.path := by
  obtain ⟨hkeys, hconfs⟩ := mergeFields_ok h
  constructor
  · intro hc
    obtain ⟨cs', hkey', hsub⟩ := hkeys key
    rw [hkey'] at hkey
    injection hkey with hpair
    obtain rfl : cs' = cs := congrArg Prod.snd hpair
    exact ⟨hsub hc, mergeValue_path_extends hkey' hc⟩
  · rintro ⟨hc, hprefix⟩
    obtain ⟨other, v, cs', hother, hmem⟩ := hconfs c hc
    have hother' : path ++ [other] <+: c.path := mergeValue_path_extends hother hmem
    obtain rfl : other = key := by
      have hsame := prefix_of_prefix_length_le hother' hprefix (by simp)
      have heq := hsame.eq_of_length (by simp)
      simpa using heq
    rw [hother] at hkey
    injection hkey with hpair
    obtain rfl : cs' = cs := congrArg Prod.snd hpair
    exact hmem

/-- No conflict of a dictionary sits at the dictionary itself. -/
theorem mergeFields_path_ne
    (h : mergeFields setFields onConflict base ours theirs path = .ok (result, confs))
    (hc : c ∈ confs) : c.path ≠ path := by
  obtain ⟨-, hconfs⟩ := mergeFields_ok h
  obtain ⟨key, v, cs, hkey, hmem⟩ := hconfs c hc
  intro heq
  have hlength := (mergeValue_path_extends hkey hmem).length_le
  rw [heq] at hlength
  simp at hlength

theorem mergeValue_eq_theirs (hours : PyEq? ov bv)
    (h : mergeValue setFields onConflict bv ov tv isSet path = .ok (value, confs)) :
    PyEq? value tv := by
  cases mergeValue_outcome h with
  | agree hagree => exact hagree
  | onlyTheirs => exact Json.EqBy?.refl _
  | onlyOurs htheirs => exact hours.trans htheirs.symm
  | set hdiverge => exact absurd hours hdiverge.ours
  | fields hdiverge => exact absurd hours hdiverge.ours
  | conflict hdiverge => exact absurd hours hdiverge.ours

theorem mergeValue_eq_ours (htheirs : PyEq? tv bv)
    (h : mergeValue setFields onConflict bv ov tv isSet path = .ok (value, confs)) :
    PyEq? value ov := by
  cases mergeValue_outcome h with
  | agree => exact Json.EqBy?.refl _
  | onlyTheirs hours => exact htheirs.trans hours.symm
  | onlyOurs => exact Json.EqBy?.refl _
  | set hdiverge => exact absurd htheirs hdiverge.theirs
  | fields hdiverge => exact absurd htheirs hdiverge.theirs
  | conflict hdiverge => exact absurd htheirs hdiverge.theirs

theorem mergeValue_eq_common (hagree : PyEq? ov tv)
    (h : mergeValue setFields onConflict bv ov tv isSet path = .ok (value, confs)) :
    PyEq? value ov := by
  cases mergeValue_outcome h with
  | agree => exact Json.EqBy?.refl _
  | onlyTheirs => exact hagree.symm
  | onlyOurs => exact Json.EqBy?.refl _
  | set hdiverge => exact absurd hagree hdiverge.sides
  | fields hdiverge => exact absurd hagree hdiverge.sides
  | conflict hdiverge => exact absurd hagree hdiverge.sides

/-- The law for two dictionaries merged under `path`, read at `path ++ p`. -/
def FieldsLaw (setFields : List String) (onConflict : OnConflict) (p : Path) : Prop :=
  ∀ (base ours theirs result : Payload) (path : Path) (confs : List Conflict),
    mergeFields setFields onConflict base ours theirs path = .ok (result, confs) →
    ¬ BelowConflict confs (path ++ p) →
    LeafwiseAt Scalar.numeric (some (.obj base)) (some (.obj ours)) (some (.obj theirs))
      (some (.obj result)) (∃ c ∈ confs, c.path = path ++ p) p

/-- The law for two values merged under `path`, read at `path ++ p`. -/
def ValueLaw (setFields : List String) (onConflict : OnConflict) (p : Path) : Prop :=
  ∀ (bv ov tv value : Option Json) (path : Path) (confs : List Conflict),
    mergeValue setFields onConflict bv ov tv false path = .ok (value, confs) →
    ¬ BelowConflict confs (path ++ p) →
    LeafwiseAt Scalar.numeric bv ov tv value (∃ c ∈ confs, c.path = path ++ p) p

/-- At the dictionaries themselves the law is the per-key one-sided laws, set
fields included. -/
theorem fieldsLaw_nil : FieldsLaw setFields onConflict [] := by
  intro base ours theirs result path confs h _
  obtain ⟨hkeys, -⟩ := mergeFields_ok h
  refine ⟨fun hours => ?_, fun htheirs => ?_, fun hagree => ?_, ?_⟩
  · rw [valueAt_nil, valueAt_nil, Json.eqBy?_some, Json.eqBy_obj_iff] at hours ⊢
    intro key
    obtain ⟨cs, hkey, -⟩ := hkeys key
    exact mergeValue_eq_theirs (hours key) hkey
  · rw [valueAt_nil, valueAt_nil, Json.eqBy?_some, Json.eqBy_obj_iff] at htheirs ⊢
    intro key
    obtain ⟨cs, hkey, -⟩ := hkeys key
    exact mergeValue_eq_ours (htheirs key) hkey
  · rw [valueAt_nil, valueAt_nil, Json.eqBy?_some, Json.eqBy_obj_iff] at hagree ⊢
    intro key
    obtain ⟨cs, hkey, -⟩ := hkeys key
    exact mergeValue_eq_common (hagree key) hkey
  · constructor
    · rintro ⟨c, hc, hpath⟩
      rw [append_nil] at hpath
      exact absurd hpath (mergeFields_path_ne h hc)
    · rintro ⟨-, hatomic⟩
      exact absurd ⟨base, ours, theirs, rfl, rfl, rfl⟩ hatomic

variable {p : Path}

theorem fieldsLaw_cons (hkeySet : key ∉ setFields) (hvalue : ValueLaw setFields onConflict p) :
    FieldsLaw setFields onConflict (key :: p) := by
  intro base ours theirs result path confs h hbelow
  obtain ⟨cs, hkey, -⟩ := (mergeFields_ok h).1 key
  have hiff : ∀ {c}, c ∈ cs ↔ c ∈ confs ∧ path ++ [key] <+: c.path :=
    mergeFields_conflict_iff h hkey
  have hpath : path ++ [key] ++ p = path ++ key :: p := by simp
  rw [decide_eq_false hkeySet] at hkey
  have hlaw := hvalue _ _ _ _ _ _ hkey (by
    rintro ⟨c, hc, hprefix, hne⟩
    rw [hpath] at hprefix hne
    exact hbelow ⟨c, (hiff.mp hc).1, hprefix, hne⟩)
  rw [hpath] at hlaw
  have hrecorded : (∃ c ∈ cs, c.path = path ++ key :: p) ↔
      ∃ c ∈ confs, c.path = path ++ key :: p := by
    constructor
    · rintro ⟨c, hc, heq⟩
      exact ⟨c, (hiff.mp hc).1, heq⟩
    · rintro ⟨c, hc, heq⟩
      refine ⟨c, hiff.mpr ⟨hc, ?_⟩, heq⟩
      rw [heq, ← hpath]
      exact prefix_append _ _
  exact ⟨hlaw.oursUnchanged, hlaw.theirsUnchanged, hlaw.agreed,
    hrecorded.symm.trans hlaw.conflicting⟩

/-- A value that came out unchanged on one side obeys the law at every path. -/
theorem leafwiseAt_of_agree (h : (PyEq? ov tv ∧ PyEq? value ov) ∨ (PyEq? ov bv ∧ PyEq? value tv) ∨
      (PyEq? tv bv ∧ PyEq? value ov)) :
    LeafwiseAt Scalar.numeric bv ov tv value False p := by
  rcases h with ⟨hsides, hval⟩ | ⟨hours, hval⟩ | ⟨htheirs, hval⟩
  · have hsides := hsides.valueAt p
    have hval := hval.valueAt p
    refine ⟨fun _ => hval.trans hsides, fun _ => hval, fun _ => hval, ?_⟩
    exact iff_of_false not_false fun h => h.1.sides hsides
  · have hours := hours.valueAt p
    have hval := hval.valueAt p
    refine ⟨fun _ => hval, fun htheirs => (hval.trans htheirs).trans hours.symm,
      fun hagree => hval.trans hagree.symm, ?_⟩
    exact iff_of_false not_false fun h => h.1.ours hours
  · have htheirs := htheirs.valueAt p
    have hval := hval.valueAt p
    refine ⟨fun hours => (hval.trans hours).trans htheirs.symm, fun _ => hval, fun _ => hval, ?_⟩
    exact iff_of_false not_false fun h => h.1.theirs htheirs

/-- The law at a path reads the base at that path only. -/
theorem LeafwiseAt.of_base_eq {leaf : Scalar → Scalar} {base base' ours theirs merged : Option Json}
    {recorded : Prop} (hbase : valueAt base p = valueAt base' p)
    (h : LeafwiseAt leaf base ours theirs merged recorded p) :
    LeafwiseAt leaf base' ours theirs merged recorded p where
  oursUnchanged := by
    rw [← hbase]
    exact h.oursUnchanged
  theirsUnchanged := by
    rw [← hbase]
    exact h.theirsUnchanged
  agreed := h.agreed
  conflicting := by
    rw [← hbase]
    exact h.conflicting

theorem valueAt_baseFields {bv : Option Json} {b : Payload} (h : baseFields bv = some b)
    (key : String) (p : Path) : valueAt (some (.obj b)) (key :: p) = valueAt bv (key :: p) := by
  rcases bv with - | (s | items | fields)
  · obtain rfl : [] = b := by simpa [baseFields] using h
    simp
  · simp [baseFields] at h
  · simp [baseFields] at h
  · obtain rfl : fields = b := by simpa [baseFields] using h
    rfl

theorem valueLaw_of_fieldsLaw (hfieldsLaw : FieldsLaw setFields onConflict p) :
    ValueLaw setFields onConflict p := by
  intro bv ov tv value path confs h hbelow
  cases mergeValue_outcome h with
  | agree hagree =>
    simpa using leafwiseAt_of_agree (p := p) (.inl ⟨hagree, Json.EqBy?.refl _⟩)
  | onlyTheirs hours =>
    simpa using leafwiseAt_of_agree (p := p) (.inr (.inl ⟨hours, Json.EqBy?.refl _⟩))
  | onlyOurs htheirs =>
    simpa using leafwiseAt_of_agree (p := p) (.inr (.inr ⟨htheirs, Json.EqBy?.refl _⟩))
  | set _ hset => cases hset
  | fields hdiverge _ hb ho ht hfields =>
    subst ho ht
    have hlaw := hfieldsLaw _ _ _ _ _ _ hfields hbelow
    cases p with
    | nil =>
      refine ⟨fun hours => absurd hours hdiverge.ours,
        fun htheirs => absurd htheirs hdiverge.theirs,
        fun hagree => absurd hagree hdiverge.sides, ?_⟩
      refine iff_of_false ?_ fun hclause => hclause.2 ⟨_, _, _, hb, rfl, rfl⟩
      rintro ⟨c, hc, hpath⟩
      exact mergeFields_path_ne hfields hc (by simpa using hpath)
    | cons key p =>
      exact hlaw.of_base_eq (valueAt_baseFields hb key p)
  | conflict hdiverge _ hatomic =>
    cases p with
    | nil =>
      refine ⟨fun hours => absurd hours hdiverge.ours,
        fun htheirs => absurd htheirs hdiverge.theirs,
        fun hagree => absurd hagree hdiverge.sides, ?_⟩
      exact iff_of_true ⟨_, mem_singleton_self _, by simp⟩ ⟨hdiverge, hatomic⟩
    | cons key p =>
      refine absurd ⟨_, mem_singleton_self _, ?_, ?_⟩ hbelow
      · exact prefix_append _ _
      · simp

theorem fieldsLaw (p : Path) (havoid : Avoids setFields p) : FieldsLaw setFields onConflict p := by
  induction p with
  | nil => exact fieldsLaw_nil
  | cons key p ih =>
    have hkey : key ∉ setFields := havoid key (by simp)
    have hrest : Avoids setFields p := fun k hk => havoid k (by simp [hk])
    exact fieldsLaw_cons hkey (valueLaw_of_fieldsLaw (ih hrest))

/-- A conflict names its values, and its winner stands at its path. -/
structure Settles (onConflict : OnConflict) (base ours theirs merged : Option Json) (c : Conflict)
    (p : Path) : Prop where
  winner : valueAt merged p = onConflict.winner (valueAt ours p) (valueAt theirs p)
  base : c.base = orNone (valueAt base p)
  ours : c.ours = orNone (valueAt ours p)
  theirs : c.theirs = orNone (valueAt theirs p)

theorem mergeValue_settles
    (h : mergeValue setFields onConflict bv ov tv isSet path = .ok (value, confs))
    (hc : c ∈ confs) : ∃ p, c.path = path ++ p ∧ Settles onConflict bv ov tv value c p := by
  induction hsize : sizeOf ov using Nat.strong_induction_on
    generalizing bv ov tv value isSet path confs with
  | _ n ih =>
    cases mergeValue_outcome h with
    | agree => simp at hc
    | onlyTheirs => simp at hc
    | onlyOurs => simp at hc
    | set => simp at hc
    | conflict =>
      obtain rfl : c = _ := by simpa using hc
      exact ⟨[], by simp, ⟨by simp, by simp, by simp, by simp⟩⟩
    | fields _ _ hb ho ht hfields =>
      obtain ⟨hkeys, hconfs⟩ := mergeFields_ok hfields
      obtain ⟨key, v, cs, hkey, hmem⟩ := hconfs c hc
      subst ho ht
      obtain ⟨p, hpath, hsettles⟩ := ih _ (hsize ▸ Json.sizeOf_get?_lt _ key) hkey hmem rfl
      obtain ⟨cs', hkey', -⟩ := hkeys key
      obtain rfl : v = _ := congrArg Prod.fst (Except.ok.inj (hkey.symm.trans hkey'))
      refine ⟨key :: p, by rw [hpath]; simp, hsettles.winner, ?_, hsettles.ours, hsettles.theirs⟩
      rw [← valueAt_baseFields hb key p]
      exact hsettles.base

theorem mergeFields_settles
    (h : mergeFields setFields onConflict base ours theirs path = .ok (result, confs))
    (hc : c ∈ confs) :
    ∃ p, c.path = path ++ p ∧ Settles onConflict (some (.obj base)) (some (.obj ours))
      (some (.obj theirs)) (some (.obj result)) c p := by
  obtain ⟨hkeys, hconfs⟩ := mergeFields_ok h
  obtain ⟨key, v, cs, hkey, hmem⟩ := hconfs c hc
  obtain ⟨p, hpath, hsettles⟩ := mergeValue_settles hkey hmem
  obtain ⟨cs', hkey', -⟩ := hkeys key
  obtain rfl : v = _ := congrArg Prod.fst (Except.ok.inj (hkey.symm.trans hkey'))
  exact ⟨key :: p, by rw [hpath]; simp, hsettles.winner, hsettles.base, hsettles.ours,
    hsettles.theirs⟩

theorem mergeValue_not_invented
    (h : mergeValue setFields onConflict bv ov tv isSet path = .ok (value, confs)) (p : Path)
    (hp : valueAt value p ≠ none) : valueAt ov p ≠ none ∨ valueAt tv p ≠ none := by
  induction p generalizing bv ov tv value isSet path confs with
  | nil =>
    simp only [valueAt_nil]
    cases mergeValue_outcome h with
    | agree => exact .inl hp
    | onlyTheirs => exact .inr hp
    | onlyOurs => exact .inl hp
    | set hdiverge =>
      -- Two missing sides would have agreed.
      by_contra hnone
      push Not at hnone
      exact hdiverge.sides (by rw [hnone.1, hnone.2])
    | fields _ _ _ ho => exact .inl (by simp [ho])
    | conflict =>
      cases onConflict with
      | ours => exact .inl hp
      | theirs => exact .inr hp
  | cons key p ih =>
    cases mergeValue_outcome h with
    | agree => exact .inl hp
    | onlyTheirs => exact .inr hp
    | onlyOurs => exact .inl hp
    | set => simp at hp
    | fields _ _ _ ho ht hfields =>
      subst ho ht
      obtain ⟨cs, hkey, -⟩ := (mergeFields_ok hfields).1 key
      exact ih hkey hp
    | conflict =>
      cases onConflict with
      | ours => exact .inl hp
      | theirs => exact .inr hp

variable {fields : Payload}

theorem HashableSets.get? (h : HashableSets setFields (some (.obj fields))) (key : String) :
    HashableSets setFields (fields.get? key) :=
  fun p k items hk hvalue => h (key :: p) k items hk hvalue

theorem hashableSets_none : HashableSets setFields none := by
  intro p key items _ hvalue
  simp at hvalue

theorem hashableSets_scalar (s : Scalar) : HashableSets setFields (some (.scalar s)) := by
  intro p key items _ hvalue
  cases p <;> simp at hvalue

theorem hashableSets_arr (elems : List Json) : HashableSets setFields (some (.arr elems)) := by
  intro p key items _ hvalue
  cases p <;> simp at hvalue

theorem toSet_isOk {items : List Json} (h : ∀ x ∈ items, ∃ s, x = .scalar s) :
    ∃ s, toSet items = .ok s := by
  induction items with
  | nil => exact ⟨[], rfl⟩
  | cons x rest ih =>
    obtain ⟨s, rfl⟩ := h x (by simp)
    obtain ⟨tail, htail⟩ := ih fun y hy => h y (by simp [hy])
    exact ⟨s :: setDiff tail [s], by simp [toSet, htail, Except.map]⟩

def ScalarItems (value : Option Json) : Prop :=
  ∀ items, value = some (.arr items) → ∀ x ∈ items, ∃ s, x = .scalar s

theorem HashableSets.scalarItems (h : HashableSets setFields (some (.obj fields)))
    (hkey : key ∈ setFields) : ScalarItems (fields.get? key) :=
  fun items hvalue => h [] key items hkey hvalue

theorem hashableSets_obj (h : ∀ entry ∈ fields, HashableSets setFields (some entry.2) ∧
      (entry.1 ∈ setFields → ScalarItems (some entry.2))) :
    HashableSets setFields (some (.obj fields)) := by
  intro p key items hkey hvalue
  cases p with
  | nil =>
    exact (h _ (Dict.mem_of_get? hvalue)).2 hkey items rfl
  | cons k p =>
    rw [cons_append, Json.valueAt_obj_cons] at hvalue
    cases hk : Dict.get? fields k with
    | none => simp [hk] at hvalue
    | some v =>
      rw [hk] at hvalue
      exact (h _ (Dict.mem_of_get? hk)).1 p key items hkey hvalue

theorem elements_isOk {value : Option Json} (h : ScalarItems value) :
    ∃ s, elements value = .ok s := by
  rcases value with - | (s | items | fields)
  · exact ⟨[], rfl⟩
  · exact ⟨[], rfl⟩
  · exact toSet_isOk (h items rfl)
  · exact ⟨[], rfl⟩

/-- A set field whose lists hold scalars is merged without an exception. -/
theorem mergeSet_isOk {bv ov tv : Option Json} (hb : ScalarItems bv) (ho : ScalarItems ov)
    (ht : ScalarItems tv) :
    ∃ items, mergeSet bv ov tv = .ok items := by
  obtain ⟨b, hb⟩ := elements_isOk hb
  obtain ⟨o, ho⟩ := elements_isOk ho
  obtain ⟨t, ht⟩ := elements_isOk ht
  refine ⟨(mergeElements b o t).map Json.scalar, ?_⟩
  simp [mergeSet, hb, ho, ht, bind, Except.bind, pure, Except.pure]

theorem mergeEntries_isOk {merge : String → Except PyError (Option Json × List Conflict)}
    (h : ∀ key, ∃ r, merge key = .ok r) (keys : List String) :
    ∃ r, mergeEntries merge keys = .ok r := by
  induction keys with
  | nil => exact ⟨_, rfl⟩
  | cons key rest ih =>
    obtain ⟨⟨value, cs⟩, hkey⟩ := h key
    obtain ⟨⟨tail, confs⟩, hrest⟩ := ih
    cases value with
    | none =>
      refine ⟨(tail, cs ++ confs), ?_⟩
      simp [mergeEntries, hkey, hrest, bind, Except.bind, pure, Except.pure]
    | some v =>
      refine ⟨((key, v) :: tail, cs ++ confs), ?_⟩
      simp [mergeEntries, hkey, hrest, bind, Except.bind, pure, Except.pure]

theorem mergeFields_isOk {base ours theirs : Payload}
    (h : ∀ key, ∃ r, mergeValue setFields onConflict (base.get? key) (ours.get? key)
      (theirs.get? key) (key ∈ setFields) (path ++ [key]) = .ok r) :
    ∃ r, mergeFields setFields onConflict base ours theirs path = .ok r := by
  rw [mergeFields]
  exact mergeEntries_isOk h _

theorem mergeValue_isOk {bv ov tv : Option Json} (hb : HashableSets setFields bv)
    (ho : HashableSets setFields ov) (ht : HashableSets setFields tv)
    (hset : isSet = true → ScalarItems bv ∧ ScalarItems ov ∧ ScalarItems tv) :
    ∃ r, mergeValue setFields onConflict bv ov tv isSet path = .ok r := by
  induction hsize : sizeOf ov using Nat.strong_induction_on generalizing bv ov tv isSet path with
  | _ n ih =>
    have hdescend : ∀ {b o t : Payload}, HashableSets setFields (some (.obj b)) →
        ov = some (.obj o) → tv = some (.obj t) →
        ∃ r, mergeFields setFields onConflict b o t path = .ok r := by
      intro b o t hb hov htv
      subst hov htv
      refine mergeFields_isOk fun key => ?_
      refine ih _ (hsize ▸ Json.sizeOf_get?_lt o key) (hb.get? key) (ho.get? key)
        (ht.get? key) (fun hkey => ?_) rfl
      have hkey : key ∈ setFields := by simpa using hkey
      exact ⟨hb.scalarItems hkey, ho.scalarItems hkey, ht.scalarItems hkey⟩
    rw [mergeValue.eq_def]
    split
    · exact ⟨_, rfl⟩
    split
    · exact ⟨_, rfl⟩
    split
    · exact ⟨_, rfl⟩
    split
    · rename_i hisSet
      obtain ⟨hbItems, hoItems, htItems⟩ := hset hisSet
      obtain ⟨items, hitems⟩ := mergeSet_isOk hbItems hoItems htItems
      exact ⟨(some (.arr items), []), by rw [hitems]; rfl⟩
    split
    · have hempty : HashableSets setFields (some (.obj [])) := hashableSets_obj (by simp)
      obtain ⟨r, hr⟩ := hdescend hempty rfl rfl
      exact ⟨(some (.obj r.1), r.2), by rw [hr]; rfl⟩
    · obtain ⟨r, hr⟩ := hdescend hb rfl rfl
      exact ⟨(some (.obj r.1), r.2), by rw [hr]; rfl⟩
    · exact ⟨_, rfl⟩

/-- `three_way_merge` of three present payloads returns whenever every list under
a set field holds scalars only. Whenever it returns, the merged payload obeys
the leafwise law at every path that avoids the set fields and does not lie
below a recorded conflict, and every path it has a value at is a path of ours
or of theirs. -/
theorem threeWayMerge_leafwise (setFields : List String) (onConflict : OnConflict)
    (base ours theirs : Payload) :
    (HashableSets setFields (some (.obj base)) → HashableSets setFields (some (.obj ours)) →
      HashableSets setFields (some (.obj theirs)) →
      ∃ outcome, threeWayMerge (some base) (some ours) (some theirs) setFields onConflict =
        .ok outcome) ∧
    ∀ outcome, threeWayMerge (some base) (some ours) (some theirs) setFields onConflict =
        .ok outcome →
      ∃ merged, outcome.merged = some merged ∧
        (∀ p, Avoids setFields p → ¬ BelowConflict outcome.conflicts p →
          LeafwiseAt Scalar.numeric (some (.obj base)) (some (.obj ours)) (some (.obj theirs))
            (some (.obj merged)) (∃ c ∈ outcome.conflicts, c.path = p) p) ∧
        ∀ p, valueAt (some (.obj merged)) p ≠ none →
          valueAt (some (.obj ours)) p ≠ none ∨ valueAt (some (.obj theirs)) p ≠ none := by
  constructor
  · intro hb ho ht
    obtain ⟨r, hr⟩ : ∃ r, mergeFields setFields onConflict base ours theirs [] = .ok r := by
      refine mergeFields_isOk fun key => mergeValue_isOk (hb.get? key) (ho.get? key)
        (ht.get? key) fun hkey => ?_
      have hkey : key ∈ setFields := by simpa using hkey
      exact ⟨hb.scalarItems hkey, ho.scalarItems hkey, ht.scalarItems hkey⟩
    exact ⟨⟨some r.1, r.2⟩, by simp [threeWayMerge, hr, Except.map]⟩
  · intro outcome h
    cases hr : mergeFields setFields onConflict base ours theirs [] with
    | error e => simp [threeWayMerge, hr, Except.map] at h
    | ok r =>
      obtain ⟨merged, confs⟩ := r
      obtain rfl : ⟨some merged, confs⟩ = outcome := by
        simpa [threeWayMerge, hr, Except.map] using h
      refine ⟨merged, rfl, fun p havoid hbelow => ?_, fun p hp => ?_⟩
      · exact fieldsLaw p havoid base ours theirs merged [] confs hr hbelow
      · cases p with
        | nil => exact .inl (by simp)
        | cons key p =>
          obtain ⟨cs, hkey, -⟩ := (mergeFields_ok hr).1 key
          exact mergeValue_not_invented hkey p hp

/-- The law of an entity, present or not: it is the law of its payload, and of its
absence. Where the source wins, each conflict is settled at its path. -/
structure MergesTo (setFields : List String) (onConflict : OnConflict)
    (base ours theirs merged : Option Payload) (conflicts : List Conflict) : Prop where
  law : ∀ p, Avoids setFields p → ¬ BelowConflict conflicts p →
    LeafwiseAt Scalar.numeric (base.map .obj) (ours.map .obj) (theirs.map .obj) (merged.map .obj)
      (∃ c ∈ conflicts, c.path = p) p
  settles : onConflict = .theirs → ∀ c ∈ conflicts,
    Settles onConflict (base.map .obj) (ours.map .obj) (theirs.map .obj) (merged.map .obj) c c.path

/-- An entity that came out unchanged on one side. -/
theorem MergesTo.of_agree {base ours theirs merged : Option Payload}
    (h : (PyEq? (ours.map .obj) (theirs.map .obj) ∧ PyEq? (merged.map .obj) (ours.map .obj)) ∨
      (PyEq? (ours.map .obj) (base.map .obj) ∧ PyEq? (merged.map .obj) (theirs.map .obj)) ∨
      (PyEq? (theirs.map .obj) (base.map .obj) ∧ PyEq? (merged.map .obj) (ours.map .obj))) :
    MergesTo setFields onConflict base ours theirs merged [] where
  law p _ _ := by simpa using leafwiseAt_of_agree (p := p) h
  settles _ c hc := by cases hc

theorem MergesTo.of_deleteModify {base ours theirs merged : Option Payload}
    (hdiverge : Diverge Scalar.numeric (base.map .obj) (ours.map .obj) (theirs.map .obj))
    (hatomic : ¬ Mergeable (base.map .obj) (ours.map .obj) (theirs.map .obj))
    (hwinner : onConflict = .theirs → merged = theirs) :
    MergesTo setFields onConflict base ours theirs merged
      [⟨[], orNone (base.map .obj), orNone (ours.map .obj), orNone (theirs.map .obj),
        .deleteModify⟩] where
  law p _ hbelow := by
    cases p with
    | nil =>
      refine ⟨fun hours => absurd hours hdiverge.ours,
        fun htheirs => absurd htheirs hdiverge.theirs,
        fun hagree => absurd hagree hdiverge.sides, ?_⟩
      exact iff_of_true ⟨_, mem_singleton_self _, rfl⟩ ⟨hdiverge, hatomic⟩
    | cons key p =>
      exact absurd ⟨_, mem_singleton_self _, nil_prefix, by simp⟩ hbelow
  settles hpolicy c hc := by
    obtain rfl := mem_singleton.mp hc
    rw [hwinner hpolicy, hpolicy]
    exact ⟨rfl, rfl, rfl, rfl⟩

theorem mergeFields_mergesTo {base : Option Payload} {ours theirs merged : Payload}
    (h : mergeFields setFields onConflict (base.getD []) ours theirs [] = .ok (merged, confs)) :
    MergesTo setFields onConflict base (some ours) (some theirs) (some merged) confs := by
  have hbase : ∀ key p, valueAt (some (.obj (base.getD []))) (key :: p) =
      valueAt (base.map .obj) (key :: p) := by
    intro key p
    cases base with
    | none => simp
    | some b => rfl
  refine ⟨fun p havoid hbelow => ?_, fun _ c hc => ?_⟩
  · have hlaw := fieldsLaw p havoid _ ours theirs merged [] confs h hbelow
    cases p with
    | cons key p => exact hlaw.of_base_eq (hbase key p)
    | nil =>
      cases base with
      | some b => exact hlaw
      | none =>
        refine ⟨fun hours => ?_, fun htheirs => ?_, hlaw.agreed, ?_⟩
        · simp at hours
        · simp at htheirs
        · refine iff_of_false ?_ fun hclause => hclause.2 ⟨[], ours, theirs, rfl, rfl, rfl⟩
          rintro ⟨c, hc, hpath⟩
          exact mergeFields_path_ne h hc hpath
  · obtain ⟨p, hpath, hsettles⟩ := mergeFields_settles h hc
    rw [nil_append] at hpath
    rw [hpath]
    cases p with
    | nil => exact absurd hpath (mergeFields_path_ne h hc)
    | cons key p =>
      exact ⟨hsettles.winner, by rw [← hbase]; exact hsettles.base, hsettles.ours, hsettles.theirs⟩

theorem threeWayMerge_mergesTo {base ours theirs : Option Payload} {outcome : MergeOutcome}
    (h : threeWayMerge base ours theirs setFields onConflict = .ok outcome) :
    MergesTo setFields onConflict base ours theirs outcome.merged outcome.conflicts := by
  cases ours with
  | none =>
    cases theirs with
    | none =>
      obtain rfl := Except.ok.inj h
      exact .of_agree (.inl ⟨.refl _, .refl _⟩)
    | some t =>
      cases base with
      | none =>
        obtain rfl := Except.ok.inj h
        exact .of_agree (.inr (.inl ⟨.refl _, .refl _⟩))
      | some b =>
        simp only [threeWayMerge] at h
        split at h
        · rename_i heq
          obtain rfl := Except.ok.inj h
          exact .of_agree (.inr (.inr ⟨Json.eqBy?_some.mpr heq, .refl _⟩))
        · rename_i hne
          have hdiverge : Diverge Scalar.numeric (some (.obj b)) none (some (.obj t)) :=
            ⟨by simp, by simp, fun h => hne (Json.eqBy?_some.mp h)⟩
          cases onConflict <;> obtain rfl := Except.ok.inj h
          · exact .of_deleteModify hdiverge (by rintro ⟨_, _, _, _, ho, _⟩; cases ho)
              (by intro hpolicy; cases hpolicy)
          · exact .of_deleteModify hdiverge (by rintro ⟨_, _, _, _, ho, _⟩; cases ho) fun _ => rfl
  | some o =>
    cases theirs with
    | none =>
      cases base with
      | none =>
        obtain rfl := Except.ok.inj h
        exact .of_agree (.inr (.inr ⟨.refl _, .refl _⟩))
      | some b =>
        simp only [threeWayMerge] at h
        split at h
        · rename_i heq
          obtain rfl := Except.ok.inj h
          exact .of_agree (.inr (.inl ⟨Json.eqBy?_some.mpr heq, .refl _⟩))
        · rename_i hne
          have hdiverge : Diverge Scalar.numeric (some (.obj b)) (some (.obj o)) none :=
            ⟨by simp, fun h => hne (Json.eqBy?_some.mp h), by simp⟩
          cases onConflict <;> obtain rfl := Except.ok.inj h
          · exact .of_deleteModify hdiverge (by rintro ⟨_, _, _, _, _, ht⟩; cases ht)
              (by intro hpolicy; cases hpolicy)
          · exact .of_deleteModify hdiverge (by rintro ⟨_, _, _, _, _, ht⟩; cases ht) fun _ => rfl
    | some t =>
      cases hr : mergeFields setFields onConflict (base.getD []) o t [] with
      | error e => simp [threeWayMerge, hr, Except.map] at h
      | ok r =>
        obtain ⟨merged, confs⟩ := r
        obtain rfl : ⟨some merged, confs⟩ = outcome := by
          simpa [threeWayMerge, hr, Except.map] using h
        exact mergeFields_mergesTo hr

/-- Both sides edit one nested dictionary, and one side drops a tag. -/
theorem threeWayMerge_leafwise_nested :
    (∃ outcome, threeWayMerge (some [("tags", .arr [.str "a"])]) (some [("tags", .arr [])])
      (some [("tags", .arr [.str "a", .int 1])]) ["tags"] = .ok outcome) ∧
    PyEq? (valueAt (some (.obj [("p", .obj [("x", .int 2)]), ("tags", .arr [])])) ["p", "y"])
      none := by
  have htags : ∀ items : List Scalar,
      HashableSets ["tags"] (some (.obj [("tags", .arr (items.map .scalar))])) := by
    intro items
    refine hashableSets_obj fun entry hentry => ?_
    obtain rfl : entry = ("tags", .arr (items.map .scalar)) := by simpa using hentry
    refine ⟨hashableSets_arr _, fun _ elems helems x hx => ?_⟩
    obtain rfl : items.map Json.scalar = elems := by simpa using helems
    obtain ⟨s, -, rfl⟩ := mem_map.mp hx
    exact ⟨s, rfl⟩
  refine ⟨(threeWayMerge_leafwise ["tags"] .ours _ _ _).1 (htags [.str "a"]) (htags [])
    (htags [.str "a", .int 1]), ?_⟩
  obtain ⟨merged, hmerged, hlaw, -⟩ := (threeWayMerge_leafwise ["tags"] .ours
    [("p", .obj [("x", .int 1), ("y", .int 1)]), ("tags", .arr [.str "a"])]
    [("p", .obj [("x", .int 2), ("y", .int 1)]), ("tags", .arr [])]
    [("p", .obj [("x", .int 1)]), ("tags", .arr [.str "a"])]).2
      ⟨some [("p", .obj [("x", .int 2)]), ("tags", .arr [])], []⟩ (by decide +kernel)
  obtain rfl : _ = merged := some.inj hmerged
  have havoid : Avoids ["tags"] ["p", "y"] := by simp [Avoids]
  exact (hlaw ["p", "y"] havoid (by rintro ⟨c, hc, -⟩; cases hc)).oursUnchanged (by decide)

/-- A dictionary in a set field's list raises instead of merging, and under
strict JSON equality the law fails: `1` and `true` are the same change. -/
theorem threeWayMerge_unhashable_item :
    threeWayMerge (some [("tags", .arr [.obj []])]) (some [("tags", .arr [.obj [], .str "b"])])
        (some [("tags", .arr [.str "a"])]) ["tags"] =
      .error (.typeError "unhashable type: 'dict'") ∧
    threeWayMerge (some [("a", .int 1)]) (some [("a", .int 1)]) (some [("a", .bool true)]) [] =
      .ok ⟨some [("a", .int 1)], []⟩ ∧
    ¬ LeafwiseAt id (some (.obj [("a", .int 1)])) (some (.obj [("a", .int 1)]))
      (some (.obj [("a", .bool true)])) (some (.obj [("a", .int 1)])) False ["a"] := by
  refine ⟨by decide +kernel, by decide +kernel, fun hlaw => ?_⟩
  exact absurd (hlaw.oursUnchanged (by decide)) (by decide)

/-- One side is unchanged, or both changed alike. -/
def OneSided (bv ov tv : Option Json) : Prop :=
  PyEq? ov tv ∨ PyEq? ov bv ∨ PyEq? tv bv

theorem mergeValue_oneSided (h : OneSided bv ov tv) :
    ∃ value, mergeValue setFields onConflict bv ov tv isSet path = .ok (value, []) := by
  rw [mergeValue.eq_def]
  by_cases agree : PyEq? ov tv
  · exact ⟨ov, if_pos agree⟩
  by_cases hours : PyEq? ov bv
  · exact ⟨tv, by rw [if_neg agree, if_pos hours]⟩
  have htheirs : PyEq? tv bv := (h.resolve_left agree).resolve_left hours
  exact ⟨ov, by rw [if_neg agree, if_neg hours, if_pos htheirs]⟩

theorem OneSided.get? {base : Option Payload} {o t : Payload}
    (h : OneSided (base.map .obj) (some (.obj o)) (some (.obj t))) (key : String) :
    OneSided ((base.getD []).get? key) (o.get? key) (t.get? key) := by
  obtain h | h | h := h
  · exact .inl (Json.eqBy_obj_iff.mp (Json.eqBy?_some.mp h) key)
  · cases base with
    | none => cases Json.eqBy?_none_right.mp h
    | some b => exact .inr (.inl (Json.eqBy_obj_iff.mp (Json.eqBy?_some.mp h) key))
  · cases base with
    | none => cases Json.eqBy?_none_right.mp h
    | some b => exact .inr (.inr (Json.eqBy_obj_iff.mp (Json.eqBy?_some.mp h) key))

/-- Where one side is unchanged, or both changed alike, `three_way_merge` returns, whatever the set
fields hold, without a conflict, and with what the changed side holds: pulling what was pulled, or
publishing what was published, changes nothing. -/
theorem threeWayMerge_oneSided (setFields : List String) (onConflict : OnConflict)
    (base ours theirs : Option Payload)
    (h : OneSided (base.map .obj) (ours.map .obj) (theirs.map .obj)) :
    ∃ merged, threeWayMerge base ours theirs setFields onConflict = .ok ⟨merged, []⟩ ∧
      (PyEq? (ours.map .obj) (base.map .obj) → PyEq? (merged.map .obj) (theirs.map .obj)) ∧
      (PyEq? (theirs.map .obj) (base.map .obj) → PyEq? (merged.map .obj) (ours.map .obj)) ∧
      (PyEq? (ours.map .obj) (theirs.map .obj) → PyEq? (merged.map .obj) (ours.map .obj)) := by
  obtain ⟨merged, ok⟩ :
      ∃ merged, threeWayMerge base ours theirs setFields onConflict = .ok ⟨merged, []⟩ := by
    match ours, theirs with
    | none, none => exact ⟨none, rfl⟩
    | some o, some t =>
      obtain ⟨⟨merged, confs⟩, ok⟩ :
          ∃ r, mergeFields setFields onConflict (base.getD []) o t [] = .ok r :=
        mergeFields_isOk fun key =>
          (mergeValue_oneSided (h.get? key)).elim fun value hvalue => ⟨(value, []), hvalue⟩
      obtain rfl : confs = [] := by
        apply eq_nil_iff_forall_not_mem.mpr
        intro c hc
        obtain ⟨key, value, cs, merges, mem⟩ := (mergeFields_ok ok).2 c hc
        obtain ⟨other, hother⟩ := mergeValue_oneSided (h.get? key)
        cases merges.symm.trans hother
        cases mem
      exact ⟨some merged, by rw [threeWayMerge, ok]; rfl⟩
    | some o, none => cases base <;> simp_all [OneSided, threeWayMerge]
    | none, some t => cases base <;> simp_all [OneSided, threeWayMerge]
  have law := (threeWayMerge_mergesTo ok).law [] nofun (by rintro ⟨c, hc, -⟩; cases hc)
  exact ⟨merged, ok, law.oursUnchanged, law.theirsUnchanged, law.agreed⟩

/-- A list in a set field that no set can hold: theirs alone edits it, and both sides do. -/
theorem threeWayMerge_oneSided_unhashable :
    (∃ merged, threeWayMerge (some [("tags", .arr [.arr []])]) (some [("tags", .arr [.arr []])])
      (some [("tags", .arr [])]) ["tags"] = .ok ⟨merged, []⟩) ∧
    ∃ merged, threeWayMerge (some [("tags", .arr [.arr []])]) (some [("tags", .arr [.int 1])])
      (some [("tags", .arr [.bool true])]) ["tags"] = .ok ⟨merged, []⟩ ∧
      PyEq? (merged.map .obj) (some (.obj [("tags", .arr [.int 1])])) := by
  obtain ⟨alone, hAlone, -⟩ := threeWayMerge_oneSided ["tags"] .ours
    (some [("tags", .arr [.arr []])]) (some [("tags", .arr [.arr []])]) (some [("tags", .arr [])])
    (.inr (.inl (.refl _)))
  obtain ⟨both, hBoth, -, -, agreed⟩ := threeWayMerge_oneSided ["tags"] .ours
    (some [("tags", .arr [.arr []])]) (some [("tags", .arr [.int 1])])
    (some [("tags", .arr [.bool true])]) (.inl (by decide))
  exact ⟨⟨alone, hAlone⟩, both, hBoth, agreed (by decide)⟩

end DataViz.Versioning
