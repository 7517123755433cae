import KeyTransparency.Exchange
import KeyTransparency.Wire.Head

/-!
# Requests, responses and results as JSON

A search key is an object whose only member says of which kind it is; the distinguished key is also
read from its name alone, and written so.
-/

namespace KeyTransparency.Wire

/-- The search key of the kind that a member names. -/
def searchKeyOfMember? : (name : String) → Json → Option SearchKey
  | "aci", value => (ofJson? value).map .aci
  | "e164", value => (ofJson? value).map .e164
  | "username_hash", value => (ofJson? value).map .usernameHash
  | "distinguished", .null => some .distinguished
  | _, _ => none

instance : Wire SearchKey where
  toJson
    | .aci account => .record [("aci", toJson account)]
    | .e164 number => .record [("e164", toJson number)]
    | .usernameHash hash => .record [("username_hash", toJson hash)]
    | .distinguished => .text "distinguished"
  ofJson?
    | .object [(some name, value)] => searchKeyOfMember? name value
    | .string (some name) => if name = "distinguished" then some .distinguished else none
    | _ => none

instance : Wire PrefixProof where
  toJson proof := .record [("copath", toJson proof.copath), ("counter", toJson proof.counter)]
  ofJson? json := do
    let fields ← Fields.ofJson? ["copath", "counter"] json
    return {
      copath := ← fields.required? "copath"
      counter := ← fields.required? "counter" }

instance : Wire ProofStep where
  toJson step := .record
    [("index", toJson step.index), ("prefix", toJson step.prefixProof),
      ("commitment", toJson step.commitment)]
  ofJson? json := do
    let fields ← Fields.ofJson? ["index", "prefix", "commitment"] json
    return {
      index := ← fields.required? "index"
      prefixProof := ← fields.required? "prefix"
      commitment := ← fields.required? "commitment" }

instance : Wire SearchProof where
  toJson proof := .record
    [("pos", toJson proof.position), ("steps", toJson proof.steps),
      ("inclusion", toJson proof.inclusion)]
  ofJson? json := do
    let fields ← Fields.ofJson? ["pos", "steps", "inclusion"] json
    return {
      position := ← fields.required? "pos"
      steps := ← fields.required? "steps"
      inclusion := ← fields.required? "inclusion" }

instance : Wire UpdateValue where
  toJson value := .record [("value", toJson value.value)]
  ofJson? json := do
    let fields ← Fields.ofJson? ["value"] json
    return { value := ← fields.required? "value" }

instance : Wire IdentifierProof where
  toJson proof := .record
    [("vrf_proof", toJson proof.vrfProof), ("search", toJson proof.search),
      ("opening", toJson proof.opening), ("value", toJson proof.value)]
  ofJson? json := do
    let fields ← Fields.ofJson? ["vrf_proof", "search", "opening", "value"] json
    return {
      vrfProof := ← fields.required? "vrf_proof"
      search := ← fields.required? "search"
      opening := ← fields.required? "opening"
      value := ← fields.required? "value" }

instance : Wire SearchRequest where
  toJson request := .record
    ([("aci", toJson request.aci)] ++ optionalMember "e164" request.e164
      ++ optionalMember "username_hash" request.usernameHash
      ++ [("consistency", toJson request.consistency)])
  ofJson? json := do
    let fields ← Fields.ofJson? ["aci", "e164", "username_hash", "consistency"] json
    return {
      aci := ← fields.required? "aci"
      e164 := ← fields.optional? "e164"
      usernameHash := ← fields.optional? "username_hash"
      consistency := ← fields.withDefault? "consistency" .empty }

instance : Wire SearchResponse where
  toJson response := .record
    ([("tree_head", toJson response.treeHead), ("aci", toJson response.aci)]
      ++ optionalMember "e164" response.e164
      ++ optionalMember "username_hash" response.usernameHash)
  ofJson? json := do
    let fields ← Fields.ofJson? ["tree_head", "aci", "e164", "username_hash"] json
    return {
      treeHead := ← fields.required? "tree_head"
      aci := ← fields.required? "aci"
      e164 := ← fields.optional? "e164"
      usernameHash := ← fields.optional? "username_hash" }

instance : Wire DistinguishedRequest where
  toJson request := .record [("consistency", toJson request.consistency)]
  ofJson? json := do
    let fields ← Fields.ofJson? ["consistency"] json
    return { consistency := ← fields.withDefault? "consistency" .empty }

instance : Wire DistinguishedResponse where
  toJson response := .record
    [("tree_head", toJson response.treeHead), ("distinguished", toJson response.distinguished)]
  ofJson? json := do
    let fields ← Fields.ofJson? ["tree_head", "distinguished"] json
    return {
      treeHead := ← fields.required? "tree_head"
      distinguished := ← fields.required? "distinguished" }

instance : Wire MonitorKey where
  toJson key := .record
    [("search_key", toJson key.searchKey), ("entry_position", toJson key.entryPosition),
      ("commitment_index", toJson key.commitmentIndex), ("counter", toJson key.counter)]
  ofJson? json := do
    let fields ← Fields.ofJson? ["search_key", "entry_position", "commitment_index", "counter"] json
    return {
      searchKey := ← fields.required? "search_key"
      entryPosition := ← fields.required? "entry_position"
      commitmentIndex := ← fields.required? "commitment_index"
      counter := ← fields.required? "counter" }

instance : Wire MonitorRequest where
  toJson request := .record
    [("keys", toJson request.keys), ("consistency", toJson request.consistency)]
  ofJson? json := do
    let fields ← Fields.ofJson? ["keys", "consistency"] json
    return {
      keys := ← fields.required? "keys"
      consistency := ← fields.withDefault? "consistency" .empty }

instance : Wire MonitorProof where
  toJson proof := .record [("steps", toJson proof.steps)]
  ofJson? json := do
    let fields ← Fields.ofJson? ["steps"] json
    return { steps := ← fields.required? "steps" }

instance : Wire MonitorResponse where
  toJson response := .record
    [("tree_head", toJson response.treeHead), ("proofs", toJson response.proofs),
      ("inclusion", toJson response.inclusion)]
  ofJson? json := do
    let fields ← Fields.ofJson? ["tree_head", "proofs", "inclusion"] json
    return {
      treeHead := ← fields.required? "tree_head"
      proofs := ← fields.required? "proofs"
      inclusion := ← fields.required? "inclusion" }

instance : Wire VerifiedValue where
  toJson value := .record
    [("search_key", toJson value.searchKey), ("index", toJson value.index),
      ("position", toJson value.position), ("value", toJson value.value)]
  ofJson? json := do
    let fields ← Fields.ofJson? ["search_key", "index", "position", "value"] json
    return {
      searchKey := ← fields.required? "search_key"
      index := ← fields.required? "index"
      position := ← fields.required? "position"
      value := ← fields.required? "value" }

instance : Wire SearchResult where
  toJson result := .record
    [("aci", toJson result.aci), ("e164", nullable result.e164),
      ("username_hash", nullable result.usernameHash), ("tree_head", toJson result.treeHead)]
  ofJson? json := do
    let fields ← Fields.ofJson? ["aci", "e164", "username_hash", "tree_head"] json
    return {
      aci := ← fields.required? "aci"
      e164 := ← fields.optional? "e164"
      usernameHash := ← fields.optional? "username_hash"
      treeHead := ← fields.required? "tree_head" }

instance : Wire MonitoredKey where
  toJson key := .record
    [("search_key", toJson key.searchKey), ("entry_position", toJson key.entryPosition),
      ("latest_counter", toJson key.latestCounter)]
  ofJson? json := do
    let fields ← Fields.ofJson? ["search_key", "entry_position", "latest_counter"] json
    return {
      searchKey := ← fields.required? "search_key"
      entryPosition := ← fields.required? "entry_position"
      latestCounter := ← fields.required? "latest_counter" }

instance : Wire MonitorResult where
  toJson result := .record
    [("keys", toJson result.keys), ("tree_head", toJson result.treeHead)]
  ofJson? json := do
    let fields ← Fields.ofJson? ["keys", "tree_head"] json
    return {
      keys := ← fields.required? "keys"
      treeHead := ← fields.required? "tree_head" }

/-- What an accepted exchange shows, as it is printed. -/
def reportToJson : Report → Json
  | .distinguished head => toJson head
  | .search result => toJson result
  | .monitor result => toJson result

end KeyTransparency.Wire
