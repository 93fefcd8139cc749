/-
# What permission checks answer

A session's check answers what its bindings grant in the workspace, and beside that what a
wildcard of the workspace matches: a permission under a prefix whose fixed leaves are all
granted there is answered though nobody granted it. Storing the grants once each and reading
them back changes nothing, and no workspace's grants are answered in another.

A key's check answers what its profile has, its selection reaches and its owner holds.
-/

import DataViz.Access.Permissions

namespace DataViz.Access

open List Option Dict

section

variable {out : List String} {stem : String} {permission : String}

@[simp]
theorem stemOf_wildcard (stem : String) : stemOf (stem ++ ":*") = some stem.toList := by
  have colon : (":*" : String).toList = [':', '*'] := by decide +kernel
  rw [stemOf, String.toList_append, colon, if_pos (suffix_append _ _)]
  simp

theorem eq_of_mem_stemOf {granted : String} {inner : List Char} (mem : inner ∈ stemOf granted) :
    granted.toList = inner ++ [':', '*'] := by
  rw [stemOf] at mem
  split at mem
  · next ends =>
      obtain ⟨front, same⟩ := ends
      rw [← some.inj mem, ← same]
      simp
  · cases mem

theorem under_wildcard (stem : String) : Under stem.toList (stem ++ ":*") := by
  have colon : (":*" : String).toList = [':', '*'] := by decide +kernel
  rw [Under, String.toList_append, colon]
  exact ⟨['*'], by simp⟩

theorem Under.trans {outer inner : List Char} {granted : String} (below : Under outer granted)
    (wildcard : inner ∈ stemOf granted) (matches_ : Under inner permission) :
    Under outer permission := by
  have ends := eq_of_mem_stemOf wildcard
  rw [Under, ends, show inner ++ [':', '*'] = (inner ++ [':']) ++ ['*'] by simp,
    prefix_concat_iff] at below
  cases below with
  | inl whole => simpa using congrArg getLast? whole
  | inr within => exact within.trans matches_

def Whole (held : String → Prop) (stem : String) : Prop :=
  knownLeaves stem ≠ [] ∧ ∀ leaf ∈ knownLeaves stem, held leaf

def Rooted (stem : String) : Prop :=
  ∀ leaf ∈ knownLeaves stem, Under stem.toList leaf

theorem mem_collapsePrefix (rooted : Rooted stem) : permission ∈ collapsePrefix out stem ↔
      (permission ∈ out ∧ ¬ (Whole (· ∈ out) stem ∧ Under stem.toList permission)) ∨
        (Whole (· ∈ out) stem ∧ permission = stem ++ ":*") := by
  have whole : (knownLeaves stem ≠ [] ∧ ∀ leaf ∈ knownLeaves stem,
      leaf ∈ out.filter fun permission => Under stem.toList permission) ↔ Whole (· ∈ out) stem := by
    refine and_congr_right fun _ => forall₂_congr fun leaf known => ?_
    rw [mem_filter, decide_eq_true_eq]
    exact ⟨And.left, fun mem => ⟨mem, rooted leaf known⟩⟩
  rw [collapsePrefix]
  by_cases collapses : Whole (· ∈ out) stem
  · rw [if_pos (whole.mpr collapses), mem_append, mem_singleton, mem_filter,
      decide_eq_true_eq, mem_filter, decide_eq_true_eq]
    tauto
  · rw [if_neg (mt whole.mp collapses)]
    tauto

/-- Collapsing answers what is under the prefix besides. -/
theorem grants_collapsePrefix (rooted : Rooted stem) : Grants (collapsePrefix out stem) permission ↔
      Grants out permission ∨ (Whole (· ∈ out) stem ∧ Under stem.toList permission) := by
  constructor
  · rintro (mem | ⟨granted, mem, inner, wildcard, matches_⟩)
    · rw [mem_collapsePrefix rooted] at mem
      rcases mem with ⟨old, -⟩ | ⟨whole, rfl⟩
      · exact .inl (.inl old)
      · exact .inr ⟨whole, under_wildcard stem⟩
    · rw [mem_collapsePrefix rooted] at mem
      rcases mem with ⟨old, -⟩ | ⟨whole, rfl⟩
      · exact .inl (.inr ⟨granted, old, inner, wildcard, matches_⟩)
      · rw [stemOf_wildcard] at wildcard
        exact .inr ⟨whole, some.inj wildcard ▸ matches_⟩
  · have wild (whole : Whole (· ∈ out) stem) (below : Under stem.toList permission) :
        Grants (collapsePrefix out stem) permission :=
      .inr ⟨stem ++ ":*", (mem_collapsePrefix rooted).mpr (.inr ⟨whole, rfl⟩), stem.toList,
        stemOf_wildcard stem, below⟩
    rintro ((mem | ⟨granted, mem, inner, wildcard, matches_⟩) | ⟨whole, below⟩)
    · by_cases absorbed : Whole (· ∈ out) stem ∧ Under stem.toList permission
      · exact wild absorbed.1 absorbed.2
      · exact .inl ((mem_collapsePrefix rooted).mpr (.inl ⟨mem, absorbed⟩))
    · by_cases absorbed : Whole (· ∈ out) stem ∧ Under stem.toList granted
      · exact wild absorbed.1 (absorbed.2.trans wildcard matches_)
      · exact .inr ⟨granted, (mem_collapsePrefix rooted).mpr (.inl ⟨mem, absorbed⟩), inner,
          wildcard, matches_⟩
    · exact wild whole below

theorem whole_collapsePrefix {other : String} (rooted : Rooted stem)
    (apart : ∀ leaf ∈ knownLeaves other, ¬ Under stem.toList leaf) :
    Whole (· ∈ collapsePrefix out stem) other ↔ Whole (· ∈ out) other := by
  rw [Whole]
  refine and_congr_right fun _ => forall₂_congr fun leaf known => ?_
  rw [mem_collapsePrefix rooted]
  constructor
  · rintro (⟨old, -⟩ | ⟨-, rfl⟩)
    · exact old
    · exact absurd (under_wildcard stem) (apart _ known)
  · exact fun old => .inl ⟨old, fun absorbed => apart leaf known absorbed.2⟩

/-- A wildcard matches a permission: that of a prefix whose leaves are all held, or one that
is held itself. -/
def Wild (held : String → Prop) (permission : String) : Prop :=
  (∃ stem ∈ wildcardPrefixes, Whole held stem ∧ Under stem.toList permission) ∨
    ∃ granted, held granted ∧ ∃ stem ∈ stemOf granted, Under stem permission

theorem rooted_view : Rooted "workspace:view" :=
  show ∀ leaf ∈ knownLeaves "workspace:view", Under "workspace:view".toList leaf by
    decide +kernel

theorem rooted_datasource : Rooted "workspace:datasource" :=
  show ∀ leaf ∈ knownLeaves "workspace:datasource", Under "workspace:datasource".toList leaf by
    decide +kernel

theorem datasource_apart :
    ∀ leaf ∈ knownLeaves "workspace:datasource", ¬ Under "workspace:view".toList leaf := by
  decide +kernel

/-- A collapsed list answers what it had, and what a wildcard matches. -/
theorem grants_collapseWildcards : Grants (collapseWildcards out) permission ↔
      permission ∈ out ∨ Wild (· ∈ out) permission := by
  have sorted (bucket : List String) :
      Grants (Dict.sortedKeys bucket) permission ↔ Grants bucket permission := by
    simp only [Grants, mem_sortedKeys]
  rw [collapseWildcards, sorted, wildcardPrefixes, foldl_cons, foldl_cons,
    foldl_nil, grants_collapsePrefix rooted_datasource, grants_collapsePrefix rooted_view,
    whole_collapsePrefix rooted_view datasource_apart, Wild, Grants, wildcardPrefixes]
  simp only [mem_cons, not_mem_nil, or_false, exists_eq_or_imp, exists_eq_left]
  constructor
  · rintro (((mem | held) | view) | datasource)
    · exact .inl mem
    · exact .inr (.inr held)
    · exact .inr (.inl (.inl view))
    · exact .inr (.inl (.inr datasource))
  · rintro (mem | (view | datasource) | held)
    · exact .inl (.inl (.inl mem))
    · exact .inl (.inr view)
    · exact .inr datasource
    · exact .inl (.inl (.inr held))

end

section

structure Encodes (encoder : Encoder) (done : Dict String (List String)) : Prop where
  indexed : ∀ permissions index, encoder.indexOf.get? permissions = some index →
    encoder.sets[index]? = some permissions
  mapped : ∀ workspace, (encoder.mapping.get? workspace).map (fun index => encoder.sets[index]?) =
    (done.get? workspace).map some

theorem encodes_start : Encodes {} [] where
  indexed _ _ found := nomatch found
  mapped _ := rfl

theorem Encodes.add {encoder : Encoder} {done : Dict String (List String)}
    {entry : String × List String} (encodes : Encodes encoder done)
    (fresh : entry.1 ∉ done.keys) : Encodes (encoder.add entry) (done ++ [entry]) := by
  obtain ⟨workspace, permissions⟩ := entry
  have appended (other : String) : Dict.get? (done ++ [(workspace, permissions)]) other =
      if workspace = other then some permissions else done.get? other := by
    rw [get?_append, get?_cons, get?_nil]
    by_cases same : workspace = other
    · subst same
      rw [if_pos rfl, if_pos rfl, get?_eq_none_iff.mpr fresh, none_or]
    · rw [if_neg same, if_neg same, or_none]
  rw [Encoder.add]
  cases found : encoder.indexOf.get? permissions with
  | some index =>
    refine ⟨encodes.indexed, fun other => ?_⟩
    rw [appended, get?_set]
    by_cases same : workspace = other
    · rw [if_pos same, if_pos same, map_some, encodes.indexed _ _ found, map_some]
    · rw [if_neg same, if_neg same, encodes.mapped]
  | none =>
    have kept {index : ℕ} {held : List String} (old : encoder.sets[index]? = some held) :
        (encoder.sets ++ [permissions])[index]? = some held := by
      rw [getElem?_append_left (List.getElem?_eq_some_iff.mp old).1, old]
    refine ⟨fun held index stored => ?_, fun other => ?_⟩
    · rw [get?_set] at stored
      split at stored
      · next same =>
          rw [← some.inj stored, ← same, getElem?_concat_length]
      · exact kept (encodes.indexed _ _ stored)
    · rw [appended, get?_set]
      by_cases same : workspace = other
      · rw [if_pos same, if_pos same, map_some, map_some, getElem?_concat_length]
      · rw [if_neg same, if_neg same]
        have old := encodes.mapped other
        cases mapped : encoder.mapping.get? other with
        | none => rw [← old, mapped, map_none, map_none]
        | some index =>
          rw [mapped, map_some, eq_comm, map_eq_some_iff] at old
          obtain ⟨held, stored, at_⟩ := old
          rw [stored, map_some, map_some, kept at_.symm]

theorem Encodes.foldl {rest : Dict String (List String)} : ∀ {encoder : Encoder}
    {done : Dict String (List String)}, Encodes encoder done → (done ++ rest).keys.Nodup →
      Encodes (rest.foldl Encoder.add encoder) (done ++ rest) := by
  induction rest with
  | nil =>
    intro encoder done encodes _
    rwa [append_nil]
  | cons entry rest ih =>
    intro encoder done encodes nodup
    rw [← singleton_append, ← append_assoc] at nodup ⊢
    refine ih (encodes.add fun old => ?_) nodup
    rw [Dict.keys, map_append, map_append] at nodup
    exact (nodup_append.mp (nodup_append.mp nodup).1).2.2 _ old _ (mem_singleton_self _) rfl

theorem get?_decodeWs (payload : Payload) (workspace : String) : (decodeWs payload).get? workspace =
      (payload.ws.get? workspace).map (expand payload.psets) :=
  get?_map_value payload.ws (fun _ => expand payload.psets) workspace

/-- What is written is read back. -/
theorem get?_decodeWs_encodeWs {wsPerms : Dict String (List String)}
    (nodup : wsPerms.keys.Nodup) (workspace : String) :
    (decodeWs (encodeWs wsPerms)).get? workspace = wsPerms.get? workspace := by
  have encodes := encodes_start.foldl nodup
  rw [nil_append] at encodes
  have mapped := encodes.mapped workspace
  have indexed := get?_map_value (wsPerms.foldl Encoder.add {}).mapping
    (fun _ index => WsValue.index index) workspace
  rw [get?_decodeWs, encodeWs, indexed]
  generalize wsPerms.foldl Encoder.add {} = encoder at mapped ⊢
  cases found : encoder.mapping.get? workspace with
  | none =>
    rw [found, map_none, eq_comm, map_eq_none_iff] at mapped
    rw [mapped]
    rfl
  | some index =>
    rw [found, map_some, eq_comm, map_eq_some_iff] at mapped
    obtain ⟨held, stored, at_⟩ := mapped
    obtain ⟨short, here⟩ := List.getElem?_eq_some_iff.mp at_.symm
    simp [expand, stored, short, here]

end

section

variable {catalogue : Catalogue} {bindings : List RoleBinding} {service : Bool}
  {workspace permission sid : String}

def RoleBinding.On (binding : RoleBinding) (workspace : String) : Prop :=
  binding.scopeType = .workspace ∧ binding.scopeId = some workspace ∧ workspace ≠ ""

instance (binding : RoleBinding) (workspace : String) : Decidable (binding.On workspace) :=
  inferInstanceAs (Decidable (_ ∧ _ ∧ _))

/-- Some binding on the workspace has a role that holds the permission, one of workspaces. -/
def Bound (catalogue : Catalogue) (bindings : List RoleBinding) (workspace permission : String) :
    Prop :=
  ∃ binding ∈ bindings, binding.On workspace ∧
    permission ∈ catalogue.permissionsOf binding.roleName ∧
      catalogue.category permission = .workspace

instance (catalogue : Catalogue) (bindings : List RoleBinding) (workspace permission : String) :
    Decidable (Bound catalogue bindings workspace permission) :=
  inferInstanceAs (Decidable (∃ binding ∈ bindings, _ ∧ _ ∧ _))

/-- What a workspace's bindings grant: what they hold, and what `workspace:admin` implies. -/
def Granted (catalogue : Catalogue) (bindings : List RoleBinding) (workspace permission : String) :
    Prop :=
  Bound catalogue bindings workspace permission ∨
    (Bound catalogue bindings workspace "workspace:admin" ∧ permission ∈ workspaceLeaves)

instance (catalogue : Catalogue) (bindings : List RoleBinding) (workspace permission : String) :
    Decidable (Granted catalogue bindings workspace permission) :=
  inferInstanceAs (Decidable (_ ∨ _ ∧ _))

def collected (catalogue : Catalogue) (bindings : List RoleBinding) (workspace : String) :
    List String :=
  ((bindings.flatMap (workspaceOf catalogue false)).filter fun pair => pair.1 = workspace).map
    Prod.snd

theorem mem_collected : permission ∈ collected catalogue bindings workspace ↔
    Bound catalogue bindings workspace permission := by
  simp only [collected, List.mem_map, mem_filter, mem_flatMap, workspaceOf,
    mem_filterMap, permsForRole, Bool.false_eq_true, if_false, decide_eq_true_eq,
    ite_none_right_eq_some, Option.some.injEq]
  constructor
  · rintro ⟨pair, ⟨⟨binding, mem, held, inRole, ⟨type, category, named⟩, rfl⟩, rfl⟩, rfl⟩
    refine ⟨binding, mem, ⟨type, ?_, named⟩, inRole, category⟩
    cases scope : binding.scopeId with
    | none => rw [scope] at named; exact absurd rfl named
    | some id => rfl
  · rintro ⟨binding, mem, ⟨type, scope, named⟩, inRole, category⟩
    exact ⟨(workspace, permission), ⟨⟨binding, mem, permission, inRole,
      ⟨type, category, by rwa [scope]⟩, by rw [scope]; rfl⟩, rfl⟩, rfl⟩

theorem mem_withImplied : permission ∈ withImplied (collected catalogue bindings workspace) ↔
    Granted catalogue bindings workspace permission := by
  rw [withImplied, Granted, ← mem_collected, ← mem_collected]
  split
  · next admin => simp [admin]
  · next none => simp [none]

theorem getD_wsPerms_fold : (((fold catalogue bindings sid false).wsPerms.get? workspace).getD []) =
      collapseWildcards (withImplied (collected catalogue bindings workspace)) := by
  have grouped := get?_map_value (Dict.group (bindings.flatMap (workspaceOf catalogue false)))
    (fun _ permissions => collapseWildcards (withImplied permissions)) workspace
  have held := get?_group (bindings.flatMap (workspaceOf catalogue false)) workspace
  rw [fold, grouped, collected, ← held]
  cases (Dict.group (bindings.flatMap (workspaceOf catalogue false))).get? workspace with
  | none =>
    decide +kernel
  | some permissions => rw [map_some, getD_some, getD_some]

theorem nodup_keys_wsPerms_fold : (fold catalogue bindings sid false).wsPerms.keys.Nodup := by
  rw [fold, Dict.keys, List.map_map]
  exact nodup_keys_group _

/-- A stored session's check is the fold's own. -/
theorem hasPermission_readBack (claims : PermissionClaims) (nodup : claims.wsPerms.keys.Nodup) :
    hasPermission (readBack claims) permission (some workspace) =
      hasPermission claims permission (some workspace) := by
  have answered : (readBack claims).wsPerms.get? workspace = claims.wsPerms.get? workspace :=
    get?_decodeWs_encodeWs nodup workspace
  rw [hasPermission, answered]
  rfl

theorem hasPermission_iff_grants {claims : PermissionClaims} (noOrg : ¬ OrgWide claims)
    (noKey : claims.keyScope = none) :
    hasPermission claims permission (some workspace) ↔
      Grants ((claims.wsPerms.get? workspace).getD []) permission := by
  rw [OrgWide, not_or, not_or] at noOrg
  rw [hasPermission, noKey]
  simp [noOrg]

theorem hasPermission_session (noOrg : ¬ OrgWide (fold catalogue bindings sid false)) :
    hasPermission (readBack (fold catalogue bindings sid false)) permission (some workspace) ↔
      Granted catalogue bindings workspace permission ∨
        Wild (Granted catalogue bindings workspace) permission := by
  have same : (· ∈ withImplied (collected catalogue bindings workspace)) =
      Granted catalogue bindings workspace :=
    funext fun permission => propext mem_withImplied
  rw [hasPermission_readBack _ nodup_keys_wsPerms_fold, hasPermission_iff_grants noOrg rfl,
    getD_wsPerms_fold, grants_collapseWildcards, mem_withImplied, same]

theorem granted_filter_on :
    Granted catalogue (bindings.filter fun binding => binding.On workspace) workspace =
      Granted catalogue bindings workspace := by
  have bound : Bound catalogue (bindings.filter fun binding => binding.On workspace) workspace =
      Bound catalogue bindings workspace := by
    funext permission
    rw [Bound]
    simp only [mem_filter, decide_eq_true_eq]
    apply propext
    constructor
    · exact fun ⟨binding, ⟨mem, on⟩, held⟩ => ⟨binding, mem, held⟩
    · exact fun ⟨binding, mem, on, held⟩ => ⟨binding, ⟨mem, on⟩, on, held⟩
  funext permission
  rw [Granted, Granted, bound]

theorem not_orgWide_filter_on : ¬ OrgWide (fold catalogue
    (bindings.filter fun binding => binding.On workspace) sid false) := by
  have none : (bindings.filter fun binding => binding.On workspace).flatMap
      (globalOf catalogue false) = [] := by
    rw [flatMap_eq_nil_iff]
    intro binding mem
    have on : binding.On workspace := of_decide_eq_true (mem_filter.mp mem).2
    rw [globalOf]
    simp [on.1]
  simp [OrgWide, fold, none, mem_sortedKeys]

/-- No other workspace's bindings, and none over the organisation that gives no permission of
its own, change what a session's check answers. -/
theorem hasPermission_filter_on (noOrg : ¬ OrgWide (fold catalogue bindings sid false)) :
    hasPermission (readBack (fold catalogue
        (bindings.filter fun binding => binding.On workspace) sid false)) permission
          (some workspace) =
      hasPermission (readBack (fold catalogue bindings sid false)) permission (some workspace) := by
  rw [Bool.eq_iff_iff, hasPermission_session noOrg, hasPermission_session not_orgWide_filter_on,
    granted_filter_on]

end

section

variable {views dataSources : String → Option String} {owner : PermissionClaims}
  {scope : KeyScope} {workspace permission : String}

def LivesIn (table : String → Option String) (ids : List String) (workspace : String) : Prop :=
  ∃ id ∈ ids, table id = some workspace ∧ workspace ≠ ""

/-- A key's selection reaches what the permission is about in the workspace: it is selected
whole, or a view is and it is about views, or a data source and it is about data. -/
def Reaches (views dataSources : String → Option String) (scope : KeyScope)
    (permission workspace : String) : Prop :=
  scope.allResources ∨ workspace ∈ scope.workspaces ∨
    (permission ∈ scope.viewPermissions ∧ LivesIn views scope.viewIds workspace) ∨
      (permission ∈ scope.dataPermissions ∧ LivesIn dataSources scope.dataSourceIds workspace)

theorem mem_locate {table : String → Option String} {ids : List String} :
    workspace ∈ (locate table ids).map Prod.snd ↔ LivesIn table ids workspace := by
  simp [locate, Dict.ofKeys, LivesIn, filter_eq_some_iff]

theorem mem_wanted : permission ∈ wanted views dataSources scope workspace ↔
    permission ∈ scope.permissions ∧ Reaches views dataSources scope permission workspace := by
  rw [wanted, mem_append, mem_ite_nil_right, mem_ite_nil_right, mem_locate,
    mem_locate, KeyScope.permissions, mem_append, Reaches]
  tauto

theorem stemOf_permissions (mem : permission ∈ scope.permissions) : stemOf permission = none := by
  rw [KeyScope.permissions, KeyScope.viewPermissions, KeyScope.dataPermissions] at mem
  revert permission
  cases scope.views <;> cases scope.data <;> cases scope.publish <;> decide +kernel

theorem mem_candidates (reached : permission ∈ wanted views dataSources scope workspace) :
    workspace ∈ candidates views dataSources owner scope ↔
      (scope.allResources → workspace ∈ owner.wsPerms.keys) := by
  rw [candidates]
  by_cases all : scope.allResources
  · simp [all]
  · rw [wanted, mem_append, mem_ite_nil_right, mem_ite_nil_right] at reached
    simp only [all, if_false, false_implies, iff_true, mem_append, Bool.false_eq_true]
    tauto

theorem mem_bucket : permission ∈ (((resolveForApiKey views dataSources owner scope).wsPerms.get?
        workspace).getD []) ↔
      (scope.allResources → workspace ∈ owner.wsPerms.keys) ∧ permission ∈ scope.permissions ∧
          Reaches views dataSources scope permission workspace ∧
            hasPermission owner permission (some workspace) := by
  have mem_held : permission ∈ held views dataSources owner scope workspace ↔
      permission ∈ wanted views dataSources scope workspace ∧
        hasPermission owner permission (some workspace) := by
    rw [held, mem_sortedKeys, mem_filter]
  have answered : (((resolveForApiKey views dataSources owner scope).wsPerms.get?
      workspace).getD []) = if workspace ∈ (candidates views dataSources owner scope).dedup then
          held views dataSources owner scope workspace else [] := by
    rw [resolveForApiKey, get?_ofKeys]
    split
    · dsimp only
      split
      · next none => rw [none, getD_none]
      · rfl
    · rfl
  rw [answered, mem_ite_nil_right, mem_dedup, mem_held, mem_wanted, and_assoc]
  constructor
  · rintro ⟨candidate, inProfile, reaches, has⟩
    exact ⟨(mem_candidates (mem_wanted.mpr ⟨inProfile, reaches⟩)).mp candidate, inProfile,
      reaches, has⟩
  · rintro ⟨bound, inProfile, reaches, has⟩
    exact ⟨(mem_candidates (mem_wanted.mpr ⟨inProfile, reaches⟩)).mpr bound, inProfile,
      reaches, has⟩

theorem hasPermission_key :
    hasPermission (resolveForApiKey views dataSources owner scope) permission (some workspace) ↔
      (scope.allResources ∧ OrgWide owner ∧ permission ∈ scope.permissions ∧
        hasPermission owner permission (some everyWorkspace)) ∨
      ((scope.allResources → workspace ∈ owner.wsPerms.keys) ∧ permission ∈ scope.permissions ∧
          Reaches views dataSources scope permission workspace ∧
            hasPermission owner permission (some workspace)) := by
  have plain : Grants (((resolveForApiKey views dataSources owner scope).wsPerms.get?
      workspace).getD []) permission ↔
        permission ∈ (((resolveForApiKey views dataSources owner scope).wsPerms.get?
          workspace).getD []) := by
    rw [Grants, or_iff_left]
    rintro ⟨granted, mem, stem, wildcard, -⟩
    rw [stemOf_permissions (mem_bucket.mp mem).2.1] at wildcard
    cases wildcard
  have noGlobal : (resolveForApiKey views dataSources owner scope).globalPerms = [] := rfl
  have shortcut : (∃ resolved ∈ (resolveForApiKey views dataSources owner scope).keyScope,
      permission ∈ resolved.orgPerms) ↔
        scope.allResources ∧ OrgWide owner ∧ permission ∈ scope.permissions ∧
          hasPermission owner permission (some everyWorkspace) := by
    simp [resolveForApiKey, mem_ite_nil_right, and_assoc]
  rw [← mem_bucket, ← plain, ← shortcut, hasPermission, noGlobal]
  simp only [not_mem_nil, if_false, and_false, Bool.ite_eq_true_distrib, decide_eq_true_eq,
    if_true_left, Classical.or_iff_not_imp_left]

/-- What a key's check should answer: what its profile has, its selection reaches and its owner
holds, all of it where the owner is bound. -/
def KeyAnswers (views dataSources : String → Option String) (owner : PermissionClaims)
    (scope : KeyScope) (permission workspace : String) : Prop :=
  let answered :=
    hasPermission (resolveForApiKey views dataSources owner scope) permission (some workspace)
  let due := permission ∈ scope.permissions ∧ Reaches views dataSources scope permission workspace ∧
      hasPermission owner permission (some workspace)
  (answered → due) ∧ (workspace ∈ owner.wsPerms.keys → due → answered)

theorem keyAnswers_iff : KeyAnswers views dataSources owner scope permission workspace ↔
    (scope.allResources → OrgWide owner → permission ∈ scope.permissions →
      hasPermission owner permission (some everyWorkspace) →
        hasPermission owner permission (some workspace)) := by
  rw [KeyAnswers, hasPermission_key]
  constructor
  · rintro ⟨sound, -⟩ all org inProfile everywhere
    exact (sound (.inl ⟨all, org, inProfile, everywhere⟩)).2.2
  · intro safe
    refine ⟨?_, fun bound due => .inr ⟨fun _ => bound, due⟩⟩
    rintro (⟨all, org, inProfile, everywhere⟩ | ⟨-, due⟩)
    · exact ⟨inProfile, .inl all, safe all org inProfile everywhere⟩
    · exact due

end

/-- A session's check answers what is granted in the workspace if and only if no wildcard
matches more, by the bindings on the workspace alone; a key's answers what it should if and
only if its owner holds nothing at the reserved id alone. -/
theorem hasPermission_answers_iff (catalogue : Catalogue) (bindings : List RoleBinding)
    (sid permission workspace : String) (noOrg : ¬ OrgWide (fold catalogue bindings sid false))
    (views dataSources : String → Option String) (owner : PermissionClaims) (scope : KeyScope) :
    ((hasPermission (readBack (fold catalogue bindings sid false)) permission (some workspace) ↔
        Granted catalogue bindings workspace permission) ↔
      Granted catalogue bindings workspace permission ∨
        ¬ Wild (Granted catalogue bindings workspace) permission) ∧
    hasPermission (readBack (fold catalogue
        (bindings.filter fun binding => binding.On workspace) sid false)) permission
          (some workspace) =
      hasPermission (readBack (fold catalogue bindings sid false)) permission (some workspace) ∧
    (KeyAnswers views dataSources owner scope permission workspace ↔
      (scope.allResources → OrgWide owner → permission ∈ scope.permissions →
        hasPermission owner permission (some everyWorkspace) →
          hasPermission owner permission (some workspace))) := by
  refine ⟨?_, hasPermission_filter_on noOrg, keyAnswers_iff⟩
  rw [hasPermission_session noOrg]
  by_cases granted : Granted catalogue bindings workspace permission
  · simp [granted]
  · simp [granted]

def exportCatalogue : Catalogue where
  rolePermissions := [("editor", ["workspace:view:create", "workspace:view:edit",
    "workspace:view:delete", "workspace:view:publish", "workspace:view:read"])]
  categories := [("workspace:view:create", .workspace), ("workspace:view:edit", .workspace),
    ("workspace:view:delete", .workspace), ("workspace:view:publish", .workspace),
    ("workspace:view:read", .workspace), ("workspace:view:export", .workspace)]

/-- What the editor is granted is answered, and a key over the workspace reads its views. -/
theorem hasPermission_answers_editor :
    hasPermission (readBack (fold exportCatalogue [⟨"editor", .workspace, some "ws_a"⟩] "s"
        false)) "workspace:view:edit" (some "ws_a") ∧
      KeyAnswers (fun _ => none) (fun _ => none)
        (fold exportCatalogue [⟨"editor", .workspace, some "ws_a"⟩] "s" false)
        { keyId := "k", views := .read, workspaces := ["ws_a"] } "workspace:view:edit"
        "ws_a" := by
  obtain ⟨session, -, key⟩ := hasPermission_answers_iff exportCatalogue
    [⟨"editor", .workspace, some "ws_a"⟩] "s" "workspace:view:edit" "ws_a" (by decide +kernel)
    (fun _ => none) (fun _ => none)
    (fold exportCatalogue [⟨"editor", .workspace, some "ws_a"⟩] "s" false)
    { keyId := "k", views := .read, workspaces := ["ws_a"] }
  exact ⟨(session.mpr (.inl (by decide +kernel))).mpr (by decide +kernel), key.mpr nofun⟩

/-- The export is answered too. -/
theorem hasPermission_export :
    ¬ OrgWide (fold exportCatalogue [⟨"editor", .workspace, some "ws_a"⟩] "s" false) ∧
      ¬ (hasPermission (readBack (fold exportCatalogue
            [⟨"editor", .workspace, some "ws_a"⟩] "s" false)) "workspace:view:export"
              (some "ws_a") ↔
          Granted exportCatalogue [⟨"editor", .workspace, some "ws_a"⟩] "ws_a"
            "workspace:view:export") := by
  decide +kernel

section

variable {catalogue : Catalogue} {bindings bindings' : List RoleBinding}
  {workspace permission sid : String}

theorem Bound.mono (more : bindings ⊆ bindings')
    (bound : Bound catalogue bindings workspace permission) :
    Bound catalogue bindings' workspace permission :=
  bound.imp fun _ held => ⟨more held.1, held.2⟩

theorem hasPermission_fold :
    hasPermission (readBack (fold catalogue bindings sid false)) permission (some workspace) ↔
      (∃ held ∈ (fold catalogue bindings sid false).globalPerms, held = "system:admin" ∨
        held = "system:org-admin" ∨
          (held = "system:org-viewer" ∧ ":read".toList <:+ permission.toList)) ∨
        Granted catalogue bindings workspace permission ∨
          Wild (Granted catalogue bindings workspace) permission := by
  have same : (· ∈ withImplied (collected catalogue bindings workspace)) =
      Granted catalogue bindings workspace :=
    funext fun held => propext mem_withImplied
  have noKey : (fold catalogue bindings sid false).keyScope = none := rfl
  rw [hasPermission_readBack _ nodup_keys_wsPerms_fold, hasPermission, getD_wsPerms_fold, noKey,
    ← same, ← grants_collapseWildcards]
  generalize (fold catalogue bindings sid false).globalPerms = held
  simp only [Bool.ite_eq_true_distrib]
  grind

/-- More bindings never answer less, in whatever order and however often they come: the leaves
that a wildcard replaces are still answered. -/
theorem hasPermission_mono (more : bindings ⊆ bindings') (place : Option String) :
    hasPermission (readBack (fold catalogue bindings sid false)) permission place →
      hasPermission (readBack (fold catalogue bindings' sid false)) permission place := by
  have global (held : String) (has : held ∈ (fold catalogue bindings sid false).globalPerms) :
      held ∈ (fold catalogue bindings' sid false).globalPerms := by
    obtain ⟨binding, mem, holds⟩ := mem_flatMap.mp (mem_sortedKeys.mp has)
    exact mem_sortedKeys.mpr (mem_flatMap.mpr ⟨binding, more mem, holds⟩)
  rcases place with _ | workspace
  · have either (claims : PermissionClaims) : hasPermission (readBack claims) permission none ↔
        "system:admin" ∈ claims.globalPerms ∨ permission ∈ claims.globalPerms := by
      change (if "system:admin" ∈ claims.globalPerms then true
        else decide (permission ∈ claims.globalPerms)) = true ↔ _
      simp
    rw [either, either]
    exact Or.imp (global _) (global _)
  have granted (held : String) : Granted catalogue bindings workspace held →
      Granted catalogue bindings' workspace held :=
    Or.imp (Bound.mono more) (And.imp_left (Bound.mono more))
  have wild : Wild (Granted catalogue bindings workspace) permission →
      Wild (Granted catalogue bindings' workspace) permission := by
    apply Or.imp
    · exact fun ⟨stem, mem, whole, under⟩ =>
        ⟨stem, mem, ⟨whole.1, fun leaf known => granted leaf (whole.2 leaf known)⟩, under⟩
    · exact fun ⟨held, has, stem⟩ => ⟨held, granted held has, stem⟩
  rw [hasPermission_fold, hasPermission_fold]
  exact Or.imp (fun ⟨held, has, which⟩ => ⟨held, global held has, which⟩) (Or.imp (granted _) wild)

def splitCatalogue : Catalogue :=
  { exportCatalogue with rolePermissions := [("editor", ["workspace:view:create",
      "workspace:view:edit", "workspace:view:delete", "workspace:view:publish"]),
    ("viewer", ["workspace:view:read"])] }

/-- The viewer's leaf completes those of the editor, and a wildcard replaces them. -/
theorem hasPermission_mono_editor :
    let claims := fold splitCatalogue
      [⟨"viewer", .workspace, some "ws_a"⟩, ⟨"editor", .workspace, some "ws_a"⟩] "s" false
    claims.wsPerms = [("ws_a", ["workspace:view:*"])] ∧
      hasPermission (readBack claims) "workspace:view:edit" (some "ws_a") :=
  ⟨by decide +kernel, hasPermission_mono (sublist_cons_self _ _).subset (some "ws_a")
    (by decide +kernel)⟩

end

end DataViz.Access
