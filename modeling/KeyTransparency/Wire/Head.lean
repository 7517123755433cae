import KeyTransparency.Head
import KeyTransparency.Wire.Fields

/-!
# Tree heads as JSON
-/

namespace KeyTransparency.Wire

instance : Wire TreeHead where
  toJson head := .record
    [("tree_size", toJson head.treeSize), ("timestamp", toJson head.timestamp),
      ("root", toJson head.root), ("signature", toJson head.signature)]
  ofJson? json := do
    let fields ← Fields.ofJson? ["tree_size", "timestamp", "root", "signature"] json
    return {
      treeSize := ← fields.required? "tree_size"
      timestamp := ← fields.required? "timestamp"
      root := ← fields.required? "root"
      signature := ← fields.required? "signature" }

instance : Wire AuditorTreeHead where
  toJson head := .record
    ([("tree_head", toJson head.treeHead)] ++ optionalMember "root_value" head.rootValue
      ++ [("consistency", toJson head.consistency)])
  ofJson? json := do
    let fields ← Fields.ofJson? ["tree_head", "root_value", "consistency"] json
    return {
      treeHead := ← fields.required? "tree_head"
      rootValue := ← fields.optional? "root_value"
      consistency := ← fields.withDefault? "consistency" [] }

instance : Wire FullTreeHead where
  toJson head := .record
    ([("tree_head", toJson head.treeHead),
      ("consistency_to_last", toJson head.consistencyToLast),
      ("consistency_to_distinguished", toJson head.consistencyToDistinguished)]
      ++ optionalMember "auditor_tree_head" head.auditorTreeHead)
  ofJson? json := do
    let fields ← Fields.ofJson?
      ["tree_head", "consistency_to_last", "consistency_to_distinguished", "auditor_tree_head"] json
    return {
      treeHead := ← fields.required? "tree_head"
      consistencyToLast := ← fields.withDefault? "consistency_to_last" []
      consistencyToDistinguished := ← fields.withDefault? "consistency_to_distinguished" []
      auditorTreeHead := ← fields.optional? "auditor_tree_head" }

instance : Wire ConsistencyParameters where
  toJson parameters := .record
    (optionalMember "last" parameters.last
      ++ optionalMember "distinguished" parameters.distinguished)
  ofJson? json := do
    let fields ← Fields.ofJson? ["last", "distinguished"] json
    return {
      last := ← fields.optional? "last"
      distinguished := ← fields.optional? "distinguished" }

instance : Wire VerifiedTreeHead where
  toJson head := .record
    [("tree_size", toJson head.treeSize), ("timestamp", toJson head.timestamp),
      ("root", toJson head.root)]
  ofJson? json := do
    let fields ← Fields.ofJson? ["tree_size", "timestamp", "root"] json
    return {
      treeSize := ← fields.required? "tree_size"
      timestamp := ← fields.required? "timestamp"
      root := ← fields.required? "root" }

instance : Wire LastSeen where
  toJson seen := .record
    (optionalMember "last" seen.last ++ optionalMember "distinguished" seen.distinguished)
  ofJson? json := do
    let fields ← Fields.ofJson? ["last", "distinguished"] json
    return {
      last := ← fields.optional? "last"
      distinguished := ← fields.optional? "distinguished" }

end KeyTransparency.Wire
