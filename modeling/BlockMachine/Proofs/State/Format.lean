import BlockMachine.Proofs.Json.Text

namespace BlockMachine

/-!
# Saved values as JSON trees

The tree of a saved value reads back as that value as long as its floats are finite and their
texts read back, and as long as it does not nest too deep. A tree with the null that stands for an
infinity or for what is not a number is refused.

* `JsonTree.nesting` counts the levels of a tree;
* `Saved.writable_toJson`: the tree of every saved value can be written;
* `Saved.ofJson?_toJson` and `Saved.ofJson?_toJson_eq_none`: reading the tree of a saved value.
-/

namespace JsonTree

mutual

/-- How many arrays and objects are nested in a tree. -/
def nesting : JsonTree → Nat
  | array items => nestingItems items + 1
  | object members => nestingMembers members + 1
  | _ => 0

/-- How many arrays and objects are nested in the items of an array. -/
def nestingItems : List JsonTree → Nat
  | [] => 0
  | v :: rest => max (nesting v) (nestingItems rest)

/-- How many arrays and objects are nested in the members of an object. -/
def nestingMembers : List (Option String × JsonTree) → Nat
  | [] => 0
  | (_, v) :: rest => max (nesting v) (nestingMembers rest)

end

end JsonTree

/-- A float is finite, and its text reads back as that float. -/
structure Legible (x : Float) : Prop where
  finite : x.isFinite = true
  reads : (JsonNumber.ofSpelling (savedFloat.write x)).float? = some x

namespace Saved

mutual

/-- The floats inside a saved value. -/
def floats : Saved → List Float
  | float x => [x]
  | list items => itemsFloats items
  | map entries => entriesFloats entries
  | record _ fields => itemsFloats fields
  | _ => []

/-- The floats inside a list of saved values. -/
def itemsFloats : List Saved → List Float
  | [] => []
  | v :: rest => floats v ++ itemsFloats rest

/-- The floats inside the entries of a map. -/
def entriesFloats : List (Key × Saved) → List Float
  | [] => []
  | (_, v) :: rest => floats v ++ entriesFloats rest

end

/-! ### Writing -/

/-- A tagged tree can be written if its content can. -/
theorem writable_tagged (type : String) {v : JsonTree} (h : v.Writable) :
    (tagged type v).Writable := by
  refine .object (by simp) ?_
  simp only [List.mem_cons, List.not_mem_nil, or_false, forall_eq_or_imp, forall_eq]
  exact ⟨.text type, h⟩

/-- A key can be written. -/
theorem writable_keyJson (k : Key) : (keyJson k).Writable := by
  cases k with
  | name s => exact .text s
  | index i => exact .number (numeral_toString i.toInt)
  | bool b => exact .bool b

mutual

/-- The tree of a saved value can be written. -/
theorem writable_toJson (s : Saved) : s.toJson.Writable := by
  match s with
  | .null => 
    refine .object (by simp) ?_
    simpa using .text "null"
  | .int i => exact writable_tagged _ (.number (numeral_toString i.toInt))
  | .float x =>
    refine writable_tagged _ ?_
    split
    next hx => exact .number (savedFloat.numeral_write hx)
    next => exact .null
  | .bool b => exact writable_tagged _ (.bool b)
  | .str s => exact writable_tagged _ (.text s)
  | .list items => exact writable_tagged _ (.array (writable_itemsJson items))
  | .map entries => exact writable_tagged _ (.array (writable_entriesJson entries))
  | .record name fields =>
    refine writable_tagged _ (.object (by simp) ?_)
    simp only [List.mem_cons, List.not_mem_nil, or_false, forall_eq_or_imp, forall_eq]
    exact ⟨.text name, .array (writable_itemsJson fields)⟩
  | .error message => exact writable_tagged _ (.text message)

/-- Saved items can be written. -/
theorem writable_itemsJson (items : List Saved) : ∀ j ∈ itemsJson items, j.Writable := by
  match items with
  | [] => simp [itemsJson]
  | s :: rest => exact List.forall_mem_cons.2 ⟨writable_toJson s, writable_itemsJson rest⟩

/-- Saved entries can be written. -/
theorem writable_entriesJson (entries : List (Key × Saved)) :
    ∀ j ∈ entriesJson entries, j.Writable := by
  match entries with
  | [] => simp [entriesJson]
  | (k, s) :: rest =>
    refine List.forall_mem_cons.2 ⟨.array ?_, writable_entriesJson rest⟩
    simp only [List.mem_cons, List.not_mem_nil, or_false, forall_eq_or_imp, forall_eq]
    exact ⟨writable_keyJson k, writable_toJson s⟩

end

/-! ### Reading -/

/-- Where the two members of an object are found. -/
theorem named_pair {a b : String} (hab : a ≠ b) (v w : JsonTree) :
    named a [(some a, v), (some b, w)] = [0] ∧ named b [(some a, v), (some b, w)] = [1] := by
  simp [named, List.range_succ, hab, hab.symm]

/-- An object with a type and a value is read as the contents of that type. -/
theorem ofJson?_tagged (depth : Nat) (type : String) (v : JsonTree) :
    ofJson? .text (depth + 1) (tagged type v) = content? .text depth type v := by
  obtain ⟨htype, hvalue⟩ := named_pair (by decide : "type" ≠ "value") (.text type) v
  simp [tagged, ofJson?, header?, htype, hvalue, memberTag?, ofMembers?]

/-- A tag is one level more. -/
theorem nesting_tagged (type : String) (v : JsonTree) : (tagged type v).nesting = v.nesting + 1 := by
  simp [tagged, JsonTree.nesting, JsonTree.nestingMembers]

/-- An object with a type and a value reads as what its contents read as, one level up. -/
theorem ofJson?_tagged_eq_some {depth : Nat} {type : String} {v : JsonTree} {s : Saved}
    (hread : ∀ d, v.nesting ≤ d → content? .text d type v = some s)
    (hdepth : (tagged type v).nesting ≤ depth) : ofJson? .text depth (tagged type v) = some s := by
  rw [nesting_tagged] at hdepth
  obtain ⟨d, rfl⟩ : ∃ d, depth = d + 1 := ⟨depth - 1, by omega⟩
  rw [ofJson?_tagged]
  exact hread d (by omega)

/-- A record is read from its name and its fields. -/
theorem content?_record (depth : Nat) (name : String) (fields : List JsonTree) :
    content? .text (depth + 1) "record"
      (.object [(some "name", .text name), (some "fields", .array fields)]) =
        (if depth = 0 then none else ofItems? .text (depth - 1) fields).map (.record name) := by
  obtain ⟨hname, hfields⟩ := named_pair (by decide : "name" ≠ "fields") (.text name) (.array fields)
  simp [content?, hname, hfields, ofFields?, Option.map_eq_bind, Function.comp_def]

/-- A key is read as it was written. -/
theorem key?_keyJson (k : Key) : key? (keyJson k) = some k := by
  cases k with
  | index i => simp only [keyJson, key?, JsonNumber.int?_toString, Option.map_some]
  | _ => rfl

mutual

/-- The tree of a saved value reads back as that value. -/
theorem ofJson?_toJson (depth : Nat) (s : Saved) (hfloats : ∀ x ∈ s.floats, Legible x)
    (hdepth : s.toJson.nesting ≤ depth) : ofJson? .text depth s.toJson = some s := by
  match s with
  | .null =>
    simp only [toJson, JsonTree.nesting] at hdepth
    obtain ⟨d, rfl⟩ : ∃ d, depth = d + 1 := ⟨depth - 1, by omega⟩
    simp [toJson, ofJson?, header?, named, memberTag?, ofMembers?, List.range_succ]
  | .int i =>
    refine ofJson?_tagged_eq_some (fun d _ => ?_) hdepth
    simp only [content?, JsonNumber.int?_toString]
    rfl
  | .float x =>
    have hx := hfloats x (by simp [floats])
    refine ofJson?_tagged_eq_some (fun d _ => ?_) hdepth
    simp [hx.finite, content?, hx.reads]
  | .bool b => exact ofJson?_tagged_eq_some (fun d _ => by simp [content?]) hdepth
  | .str s => exact ofJson?_tagged_eq_some (fun d _ => by simp [content?]) hdepth
  | .list items =>
    refine ofJson?_tagged_eq_some (fun d hd => ?_) hdepth
    simp only [JsonTree.nesting] at hd
    have hitems := ofItems?_itemsJson (d - 1) items hfloats (by omega)
    simp [content?, hitems, Nat.ne_zero_of_lt hd]
  | .map entries =>
    refine ofJson?_tagged_eq_some (fun d hd => ?_) hdepth
    simp only [JsonTree.nesting] at hd
    have hentries := ofPairs?_entriesJson (d - 1) entries hfloats (by omega)
    simp [content?, hentries, Nat.ne_zero_of_lt hd]
  | .record name fields =>
    refine ofJson?_tagged_eq_some (fun d hd => ?_) hdepth
    simp only [JsonTree.nesting, JsonTree.nestingMembers] at hd
    obtain ⟨d, rfl⟩ : ∃ k, d = k + 2 := ⟨d - 2, by omega⟩
    have hfields := ofItems?_itemsJson d fields hfloats (by omega)
    simp [content?_record, hfields]
  | .error message => exact ofJson?_tagged_eq_some (fun d _ => by simp [content?]) hdepth

/-- Items are read as they were written. -/
theorem ofItems?_itemsJson (depth : Nat) (items : List Saved)
    (hfloats : ∀ x ∈ itemsFloats items, Legible x)
    (hdepth : JsonTree.nestingItems (itemsJson items) ≤ depth) :
    ofItems? .text depth (itemsJson items) = some items := by
  match items with
  | [] => simp [itemsJson, ofItems?]
  | s :: rest =>
    simp only [itemsFloats, List.forall_mem_append] at hfloats
    simp only [itemsJson, JsonTree.nestingItems] at hdepth
    have hs := ofJson?_toJson depth s hfloats.1 (by omega)
    have hrest := ofItems?_itemsJson depth rest hfloats.2 (by omega)
    simp [itemsJson, ofItems?, hs, hrest]

/-- Entries are read as they were written. -/
theorem ofPairs?_entriesJson (depth : Nat) (entries : List (Key × Saved))
    (hfloats : ∀ x ∈ entriesFloats entries, Legible x)
    (hdepth : JsonTree.nestingItems (entriesJson entries) ≤ depth) :
    ofPairs? .text depth (entriesJson entries) = some entries := by
  match entries with
  | [] => simp [entriesJson, ofPairs?]
  | (k, s) :: rest =>
    simp only [entriesFloats, List.forall_mem_append] at hfloats
    simp only [entriesJson, JsonTree.nestingItems, JsonTree.nesting] at hdepth
    have hs := ofJson?_toJson (depth - 1) s hfloats.1 (by omega)
    have hrest := ofPairs?_entriesJson depth rest hfloats.2 (by omega)
    have hdepth : depth ≠ 0 := by omega
    simp [entriesJson, ofPairs?, hs, hrest, key?_keyJson, hdepth]

end

/-! ### Refusing -/

/-- A tagged tree whose content is refused is refused. -/
theorem ofJson?_tagged_eq_none {type : String} {v : JsonTree} (depth : Nat)
    (hread : ∀ d, content? .text d type v = none) : ofJson? .text depth (tagged type v) = none := by
  cases depth with
  | zero => simp [tagged, ofJson?]
  | succ d => rw [ofJson?_tagged, hread d]

mutual

/-- The tree of a saved value with a float that is not finite is refused. -/
theorem ofJson?_toJson_eq_none (depth : Nat) (s : Saved) (h : ∃ x ∈ s.floats, x.isFinite = false) :
    ofJson? .text depth s.toJson = none := by
  obtain ⟨x, hmem, hx⟩ := h
  match s with
  | .float y =>
    obtain rfl : x = y := by simpa [floats] using hmem
    exact ofJson?_tagged_eq_none depth fun d => by simp [hx, content?]
  | .list items =>
    refine ofJson?_tagged_eq_none depth fun d => ?_
    simp [content?, ofItems?_itemsJson_eq_none (d - 1) items ⟨x, hmem, hx⟩]
  | .map entries =>
    refine ofJson?_tagged_eq_none depth fun d => ?_
    simp [content?, ofPairs?_entriesJson_eq_none (d - 1) entries ⟨x, hmem, hx⟩]
  | .record name fields =>
    refine ofJson?_tagged_eq_none depth fun d => ?_
    cases d with
    | zero => simp [content?]
    | succ d => simp [content?_record, ofItems?_itemsJson_eq_none (d - 1) fields ⟨x, hmem, hx⟩]
  | .null | .int _ | .bool _ | .str _ | .error _ => simp [floats] at hmem

/-- Items are refused if one of their floats is not finite. -/
theorem ofItems?_itemsJson_eq_none (depth : Nat) (items : List Saved)
    (h : ∃ x ∈ itemsFloats items, x.isFinite = false) :
    ofItems? .text depth (itemsJson items) = none := by
  obtain ⟨x, hmem, hx⟩ := h
  match items with
  | s :: rest =>
    obtain hmem | hmem := List.mem_append.1 hmem
    · simp [itemsJson, ofItems?, ofJson?_toJson_eq_none depth s ⟨x, hmem, hx⟩]
    · simp [itemsJson, ofItems?, ofItems?_itemsJson_eq_none depth rest ⟨x, hmem, hx⟩]

/-- Entries are refused if one of their floats is not finite. -/
theorem ofPairs?_entriesJson_eq_none (depth : Nat) (entries : List (Key × Saved))
    (h : ∃ x ∈ entriesFloats entries, x.isFinite = false) :
    ofPairs? .text depth (entriesJson entries) = none := by
  obtain ⟨x, hmem, hx⟩ := h
  match entries with
  | (k, s) :: rest =>
    obtain hmem | hmem := List.mem_append.1 hmem
    · simp [entriesJson, ofPairs?, ofJson?_toJson_eq_none (depth - 1) s ⟨x, hmem, hx⟩]
    · simp [entriesJson, ofPairs?, ofPairs?_entriesJson_eq_none depth rest ⟨x, hmem, hx⟩]

end

end Saved

end BlockMachine
