/-
# Permissions of a session and of an API key

The roles bound to a user are folded into claims: what they hold over the organisation, and
what they hold in each workspace. In a workspace where they hold `workspace:admin` they hold
every leaf it implies. Where the fixed leaves under a prefix are all held, what is held under
it is written as one wildcard; the lists are stored once each and read back by index.

A key's claims are its owner's, asked permission by permission for those of its profile, in
the workspaces its selection reaches. Bindings are live ones, and the tables of views and
data sources are those that exist.
-/

import DataViz.Data.Dict
import Mathlib.Data.String.Basic

namespace DataViz.Access

inductive Category where
  | system
  | workspace
  | resource
  deriving DecidableEq

structure Catalogue where
  rolePermissions : Dict String (List String)
  categories : Dict String Category

namespace Catalogue

variable (catalogue : Catalogue)

def permissionsOf (role : String) : List String :=
  (catalogue.rolePermissions.get? role).getD []

def category (permission : String) : Category :=
  (catalogue.categories.get? permission).getD .system

end Catalogue

def wildcardPrefixes : List String :=
  ["workspace:view", "workspace:datasource"]

def seedLeaves : Dict String (List String) :=
  [("workspace:view", ["workspace:view:create", "workspace:view:edit", "workspace:view:delete",
      "workspace:view:publish", "workspace:view:read"]),
    ("workspace:datasource", ["workspace:datasource:manage", "workspace:datasource:publish",
      "workspace:datasource:read"]),
    ("workspace:ontology", ["workspace:ontology:read", "workspace:ontology:manage"]),
    ("workspace:catalog", ["workspace:catalog:read", "workspace:catalog:manage"]),
    ("workspace:provider", ["workspace:provider:read"])]

def workspaceLeaves : List String :=
  ["workspace:admin", "workspace:datasource:manage", "workspace:datasource:publish",
    "workspace:datasource:read", "workspace:native-query:read", "workspace:members:add",
    "workspace:view:create", "workspace:view:edit", "workspace:view:delete",
    "workspace:view:publish", "workspace:view:read", "workspace:ontology:read",
    "workspace:ontology:manage", "workspace:catalog:read", "workspace:catalog:manage",
    "workspace:provider:read"]

def knownLeaves (stem : String) : List String :=
  (seedLeaves.get? stem).getD []

def Under (stem : List Char) (permission : String) : Prop :=
  stem ++ [':'] <+: permission.toList

instance (stem : List Char) (permission : String) : Decidable (Under stem permission) :=
  inferInstanceAs (Decidable (_ <+: _))

def stemOf (granted : String) : Option (List Char) :=
  if [':', '*'] <:+ granted.toList then some granted.toList.dropLast.dropLast else none

/-- One pass of the loop of `_collapse_wildcards`. -/
def collapsePrefix (out : List String) (stem : String) : List String :=
  let leaves := out.filter fun permission => Under stem.toList permission
  if knownLeaves stem ≠ [] ∧ ∀ leaf ∈ knownLeaves stem, leaf ∈ leaves then
    out.filter (fun permission => permission ∉ leaves) ++ [stem ++ ":*"]
  else out

def collapseWildcards (permissions : List String) : List String :=
  Dict.sortedKeys (wildcardPrefixes.foldl collapsePrefix permissions)

/-- How much of its owner's views, or data, a key may use. -/
inductive KeyLevel where
  | none
  | read
  | write
  deriving DecidableEq

/-- `KeyScope`: an API key's profile and selection, and what is resolved with its claims. -/
structure KeyScope where
  keyId : String
  kind : String := "personal"
  views : KeyLevel := .none
  data : KeyLevel := .none
  publish : Bool := false
  allResources : Bool := false
  workspaces : List String := []
  viewIds : List String := []
  dataSourceIds : List String := []
  viewWorkspaces : Dict String String := []
  dataSourceWorkspaces : Dict String String := []
  orgWide : Bool := false
  orgPerms : List String := []
  orgUnrestricted : Bool := false
  ownerPublishesEverywhere : Bool := false
  ownerPublishWorkspaces : List String := []
  deriving DecidableEq

namespace KeyScope

variable (scope : KeyScope)

def viewPermissions : List String :=
  match scope.views with
  | .none => []
  | .read => ["workspace:view:read"]
  | .write =>
    let base := ["workspace:view:read", "workspace:view:create", "workspace:view:edit",
      "workspace:view:delete"]
    if scope.publish then base ++ ["workspace:view:publish"] else base

def dataPermissions : List String :=
  match scope.data with
  | .none => []
  | .read => ["workspace:datasource:read", "workspace:ontology:read", "workspace:catalog:read"]
  | .write => ["workspace:datasource:read", "workspace:ontology:read", "workspace:catalog:read",
      "workspace:datasource:manage"]

def permissions : List String :=
  scope.viewPermissions ++ scope.dataPermissions

end KeyScope

structure PermissionClaims where
  sid : String
  globalPerms : List String := []
  wsPerms : Dict String (List String) := []
  wsAvailable : Bool := true
  keyScope : Option KeyScope := none
  deriving DecidableEq

def Grants (bucket : List String) (permission : String) : Prop :=
  permission ∈ bucket ∨ ∃ granted ∈ bucket, ∃ stem ∈ stemOf granted, Under stem permission

instance (bucket : List String) (permission : String) : Decidable (Grants bucket permission) :=
  inferInstanceAs (Decidable (_ ∨ _))

def hasPermission (claims : PermissionClaims) (permission : String)
    (workspaceId : Option String) : Bool :=
  if "system:admin" ∈ claims.globalPerms then true
  else
    match workspaceId with
    | none => permission ∈ claims.globalPerms
    | some workspace =>
      if ∃ scope ∈ claims.keyScope, permission ∈ scope.orgPerms then true
      else if "system:org-admin" ∈ claims.globalPerms then true
      else if ":read".toList <:+ permission.toList ∧
          "system:org-viewer" ∈ claims.globalPerms then true
      else Grants ((claims.wsPerms.get? workspace).getD []) permission

inductive ScopeType where
  | global
  | workspace
  deriving DecidableEq

structure RoleBinding where
  roleName : String
  scopeType : ScopeType
  scopeId : Option String
  deriving DecidableEq

def isRequestable (permission : String) : Prop :=
  permission ≠ "workspace:admin" ∧ permission ≠ "workspace:members:add"

instance (permission : String) : Decidable (isRequestable permission) :=
  inferInstanceAs (Decidable (_ ∧ _))

def serviceAccountGlobalPermissions : List String :=
  ["system:org-viewer"]

/-- What a binding's role gives, to a person or a service account. -/
def permsForRole (catalogue : Catalogue) (service : Bool) (binding : RoleBinding) : List String :=
  let permissions := catalogue.permissionsOf binding.roleName
  if service then
    permissions.filter fun permission =>
      match binding.scopeType with
      | .global => permission ∈ serviceAccountGlobalPermissions
      | .workspace => isRequestable permission
  else permissions

def globalOf (catalogue : Catalogue) (service : Bool) (binding : RoleBinding) : List String :=
  (permsForRole catalogue service binding).filter fun permission =>
    binding.scopeType = .global ∧ catalogue.category permission = .system

def workspaceOf (catalogue : Catalogue) (service : Bool) (binding : RoleBinding) :
    List (String × String) :=
  (permsForRole catalogue service binding).filterMap fun permission =>
    if binding.scopeType = .workspace ∧ catalogue.category permission = .workspace ∧
        binding.scopeId.getD "" ≠ "" then
      some (binding.scopeId.getD "", permission)
    else none

/-- `workspace:admin` implies every leaf of its workspace. -/
def withImplied (permissions : List String) : List String :=
  if "workspace:admin" ∈ permissions then permissions ++ workspaceLeaves else permissions

def fold (catalogue : Catalogue) (bindings : List RoleBinding) (sid : String)
    (service : Bool) : PermissionClaims where
  sid := sid
  globalPerms := Dict.sortedKeys (bindings.flatMap (globalOf catalogue service))
  wsPerms := (Dict.group (bindings.flatMap (workspaceOf catalogue service))).map
    fun entry => (entry.1, collapseWildcards (withImplied entry.2))

/-- A workspace's value in a payload: an index into the sets, or a list of its own. -/
inductive WsValue where
  | index (value : ℤ)
  | inline (permissions : List String)
  deriving DecidableEq

/-- The half of the claims held in the session store: `ws` and `psets`. -/
structure Payload where
  ws : Dict String WsValue
  psets : List (List String)
  deriving DecidableEq

/-- The lists stored so far, the index of each, and the workspaces mapped to them. -/
structure Encoder where
  sets : List (List String) := []
  indexOf : Dict (List String) ℕ := []
  mapping : Dict String ℕ := []

/-- One pass of the loop of `_encode_ws`. -/
def Encoder.add (encoder : Encoder) (entry : String × List String) : Encoder :=
  match encoder.indexOf.get? entry.2 with
  | some index => { encoder with mapping := encoder.mapping.set entry.1 index }
  | none =>
    { sets := encoder.sets ++ [entry.2]
      indexOf := encoder.indexOf.set entry.2 encoder.sets.length
      mapping := encoder.mapping.set entry.1 encoder.sets.length }

def encodeWs (wsPerms : Dict String (List String)) : Payload :=
  let encoder := wsPerms.foldl Encoder.add {}
  ⟨encoder.mapping.map fun entry => (entry.1, .index entry.2), encoder.sets⟩

def expand (sets : List (List String)) : WsValue → List String
  | .index value => if 0 ≤ value ∧ value < sets.length then (sets[value.toNat]?).getD [] else []
  | .inline permissions => permissions

def decodeWs (payload : Payload) : Dict String (List String) :=
  payload.ws.map fun entry => (entry.1, expand payload.psets entry.2)

def PermissionClaims.withWs (claims : PermissionClaims)
    (wsPerms : Option (Dict String (List String))) : PermissionClaims :=
  { claims with wsPerms := wsPerms.getD [], wsAvailable := wsPerms.isSome }

/-- A session's claims on a later request: the token's half, and the store's read back. -/
def readBack (claims : PermissionClaims) : PermissionClaims :=
  claims.withWs (some (decodeWs (encodeWs claims.wsPerms)))

def everyWorkspace : String :=
  "\x00every-workspace"

def locate (table : String → Option String) (ids : List String) : Dict String String :=
  Dict.ofKeys ids fun id => (table id).filter fun workspace => workspace ≠ ""

/-- The owner holds one of the permissions that answer for every workspace. -/
def OrgWide (claims : PermissionClaims) : Prop :=
  "system:admin" ∈ claims.globalPerms ∨ "system:org-admin" ∈ claims.globalPerms ∨
    "system:org-viewer" ∈ claims.globalPerms

instance (claims : PermissionClaims) : Decidable (OrgWide claims) :=
  inferInstanceAs (Decidable (_ ∨ _ ∨ _))

section

variable (views dataSources : String → Option String) (owner : PermissionClaims)
  (scope : KeyScope)

/-- `candidates`: the workspaces a key's claims look at. -/
def candidates : List String :=
  if scope.allResources then owner.wsPerms.keys
  else scope.workspaces ++ (locate views scope.viewIds).map Prod.snd ++
    (locate dataSources scope.dataSourceIds).map Prod.snd

/-- `wanted`: the permissions of the profile for what is reached in a workspace. -/
def wanted (workspace : String) : List String :=
  let whole : Prop := scope.allResources ∨ workspace ∈ scope.workspaces
  (if whole ∨ workspace ∈ (locate views scope.viewIds).map Prod.snd then
    scope.viewPermissions else []) ++
  if whole ∨ workspace ∈ (locate dataSources scope.dataSourceIds).map Prod.snd then
    scope.dataPermissions else []

def held (workspace : String) : List String :=
  Dict.sortedKeys ((wanted views dataSources scope workspace).filter fun permission =>
    hasPermission owner permission (some workspace))

/-- `resolve_for_api_key`, given the owner's claims and where live views and data sources
are. -/
def resolveForApiKey : PermissionClaims :=
  { sid := ""
    wsPerms := Dict.ofKeys (candidates views dataSources owner scope).dedup fun workspace =>
      let held := held views dataSources owner scope workspace
      if held = [] then none else some held
    keyScope := some { scope with
      viewWorkspaces := locate views scope.viewIds
      dataSourceWorkspaces := locate dataSources scope.dataSourceIds
      orgWide := scope.allResources ∧ OrgWide owner
      orgPerms :=
        if scope.allResources ∧ OrgWide owner then
          scope.permissions.filter fun permission =>
            hasPermission owner permission (some everyWorkspace)
        else []
      orgUnrestricted := scope.allResources ∧
        ("system:admin" ∈ owner.globalPerms ∨ "system:org-admin" ∈ owner.globalPerms)
      ownerPublishesEverywhere :=
        hasPermission owner "workspace:datasource:publish" (some everyWorkspace)
      ownerPublishWorkspaces := owner.wsPerms.keys.filter fun workspace =>
        hasPermission owner "workspace:datasource:publish" (some workspace) } }

end

end DataViz.Access
