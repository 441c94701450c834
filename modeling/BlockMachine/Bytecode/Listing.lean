import BlockMachine.Bytecode.Instruction

namespace BlockMachine

/-!
# Listing text of instructions

Two written forms of an instruction: `Instruction.listing`, as a program listing shows it, and
`Instruction.detail`, which names every operand.
-/

/-- A jump offset is written with its sign, zero being positive. -/
def signedText (d : Int) : String :=
  if d < 0 then toString d else "+" ++ toString d

namespace Instruction

/-- A register in a listing. -/
private def reg (r : Reg) : String :=
  "r" ++ toString r.toNat

/-- The line a program listing shows for an instruction. -/
def listing (i : Instruction) : String :=
  i.op.name ++ match i with
  | loadConst dst idx => s!" {reg dst}, #{idx.toNat}"
  | loadInt dst value => s!" {reg dst}, {value.toInt}"
  | setNull dst => s!" {reg dst}"
  | setEmptyList dst => s!" {reg dst}"
  | copy dst src => s!" {reg dst}, {reg src}"
  | move dst src => s!" {reg dst}, {reg src}"
  | swap a b => s!" {reg a}, {reg b}"
  | cast dst src type => s!" {reg dst}, {reg src}, :{type.toNat}"
  | binary _ dst lhs rhs => s!" {reg dst}, {reg lhs}, {reg rhs}"
  | increment r => s!" {reg r}"
  | getIndex dst container index => s!" {reg dst}, {reg container}[{reg index}]"
  | setIndex container index src => s!" {reg container}[{reg index}], {reg src}"
  | append list src => s!" {reg list}, {reg src}"
  | length dst container => s!" {reg dst}, {reg container}"
  | jump .always offset => s!" {signedText offset.toInt}"
  | jump (.ifTrue cond) offset => s!" {reg cond} {signedText offset.toInt}"
  | jump (.ifFalse cond) offset => s!" {reg cond} {signedText offset.toInt}"
  | jump (.ifDone index container) offset =>
    s!" {reg index}, {reg container} {signedText offset.toInt}"
  | call block base argc out => s!" @{block.toNat} {reg base} {argc.toNat} -> {reg out}"
  | callKeyed block base argc out key =>
    s!" @{block.toNat} {reg base} {argc.toNat} -> {reg out} [{reg key}]"
  | callFunc base argc out => s!" {reg base} {argc.toNat} -> {reg out}"
  | callFuncApply func args out => s!" {reg func} {reg args}.. -> {reg out}"
  | callMethod name base argc out site =>
    s!" #{name.toNat} {reg base} {argc.toNat} -> {reg out} ~{site.toNat}"
  | makeFunc dst block first count =>
    s!" {reg dst}, @{block.toNat} {reg first} {count.toNat}"
  | splatBindings first count => s!" {reg first} {count.toNat}"
  | varargsToList first => s!" {reg first}"
  | growFrame size => s!" {size.toNat}"
  | native idx => s!" !{idx.toNat}"
  | getState dst name => s!" {reg dst}, #{name.toNat}"
  | saveState name src => s!" #{name.toNat}, {reg src}"
  | retainFrame => ""
  | pause => ""
  | ret => ""

/-- The operands of an instruction with their names, in declaration order. -/
def operands : Instruction → List (String × Int)
  | loadConst dst idx => [("dst", dst.toNat), ("idx", idx.toNat)]
  | loadInt dst value => [("dst", dst.toNat), ("value", value.toInt)]
  | setNull dst => [("dst", dst.toNat)]
  | setEmptyList dst => [("dst", dst.toNat)]
  | copy dst src => [("dst", dst.toNat), ("src", src.toNat)]
  | move dst src => [("dst", dst.toNat), ("src", src.toNat)]
  | swap a b => [("a", a.toNat), ("b", b.toNat)]
  | cast dst src type => [("dst", dst.toNat), ("src", src.toNat), ("type_idx", type.toNat)]
  | binary _ dst lhs rhs => [("dst", dst.toNat), ("lhs", lhs.toNat), ("rhs", rhs.toNat)]
  | increment r => [("reg", r.toNat)]
  | getIndex dst container index =>
    [("dst", dst.toNat), ("container", container.toNat), ("index", index.toNat)]
  | setIndex container index src =>
    [("container", container.toNat), ("index", index.toNat), ("src", src.toNat)]
  | append list src => [("list", list.toNat), ("src", src.toNat)]
  | length dst container => [("dst", dst.toNat), ("container", container.toNat)]
  | jump .always offset => [("offset", offset.toInt)]
  | jump (.ifTrue cond) offset => [("cond", cond.toNat), ("offset", offset.toInt)]
  | jump (.ifFalse cond) offset => [("cond", cond.toNat), ("offset", offset.toInt)]
  | jump (.ifDone index container) offset =>
    [("index", index.toNat), ("container", container.toNat), ("offset", offset.toInt)]
  | call block base argc out =>
    [("block_idx", block.toNat), ("base", base.toNat), ("argc", argc.toNat), ("out", out.toNat)]
  | callKeyed block base argc out key =>
    [("block_idx", block.toNat), ("base", base.toNat), ("argc", argc.toNat), ("out", out.toNat),
      ("key", key.toNat)]
  | callFunc base argc out => [("base", base.toNat), ("argc", argc.toNat), ("out", out.toNat)]
  | callFuncApply func args out =>
    [("func", func.toNat), ("args", args.toNat), ("out", out.toNat)]
  | callMethod name base argc out site =>
    [("name_idx", name.toNat), ("base", base.toNat), ("argc", argc.toNat), ("out", out.toNat),
      ("site", site.toNat)]
  | makeFunc dst block first count =>
    [("dst", dst.toNat), ("block_idx", block.toNat), ("first", first.toNat),
      ("count", count.toNat)]
  | splatBindings first count => [("first", first.toNat), ("count", count.toNat)]
  | varargsToList first => [("first", first.toNat)]
  | growFrame size => [("size", size.toNat)]
  | native idx => [("idx", idx.toNat)]
  | getState dst name => [("dst", dst.toNat), ("name_idx", name.toNat)]
  | saveState name src => [("name_idx", name.toNat), ("src", src.toNat)]
  | retainFrame => []
  | pause => []
  | ret => []

/-- The instruction's name, followed by its named operands in braces if it has any. -/
def detail (i : Instruction) : String :=
  match i.operands with
  | [] => i.op.name
  | fields =>
    let shown := ", ".intercalate (fields.map fun (name, value) => name ++ ": " ++ toString value)
    i.op.name ++ " \x7b " ++ shown ++ " \x7d"

end Instruction

end BlockMachine
