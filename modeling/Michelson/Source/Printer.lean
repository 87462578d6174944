import Michelson.MacroName
import Michelson.Source.Style

/-!
# Writing source text

The tokens of a tree in a style. A keyword or mnemonic is followed by the notes
that are present, and then by the parts. The field note of a component of a type
stands among the notes of the component, in front.
-/

namespace Michelson

namespace Token

/-- The token of a word. -/
def ofWord (s : String) : Token := word s.toList

/-- The token of an integer. -/
def ofInt (z : Int) : Token := integer (z < 0) (Numeral.decimal z.natAbs)

/-- The token of a byte string. -/
def ofBytes (bs : List UInt8) : Token := bytes (Numeral.hexBytes bs)

/-- A character of a string: quotes and backslashes are escaped, and nothing
else. -/
def writtenChar (c : Char) : List Char :=
  if c = '"' ∨ c = '\\' then ['\\', c] else [c]

/-- The token of a text. -/
def ofText (s : String) : Token := string (s.toList.flatMap writtenChar)

end Token

/-- The tokens of a slot for a note. -/
def Note.tokens {σ : Sigil} (n : Note σ) : List Token :=
  match n.body? with
  | some body => [.note σ body.toList]
  | none => []

/-- The tokens of a comparable type. -/
def Comparable.tokens (s : Style) (c : Comparable) : List Token :=
  s.around (.ofWord c.base.keyword :: c.note.tokens)

/-- The tokens of a type that carries a field note for the node above. -/
def Ty.tokensWith (s : Style) (field : Note .field) : Ty → List Token
  | .atom n a => s.around (.ofWord (Head.atom a).keyword :: (field.tokens ++ n.tokens))
  | .option n f t =>
    s.around (.ofWord Head.option.keyword ::
      (field.tokens ++ n.tokens ++ t.tokensWith (s.child 0) f))
  | .wrapped n w t =>
    s.around (.ofWord (Head.wrapped w).keyword ::
      (field.tokens ++ n.tokens ++ t.tokensWith (s.child 0) .absent))
  | .set n c =>
    s.around (.ofWord Head.set.keyword :: (field.tokens ++ n.tokens ++ c.tokens (s.child 0)))
  | .joint n j lf rf l r =>
    s.around (.ofWord (Head.joint j).keyword ::
      (field.tokens ++ n.tokens ++ l.tokensWith (s.child 0) lf ++ r.tokensWith (s.child 1) rf))
  | .lambda n d c =>
    s.around (.ofWord Head.lambda.keyword ::
      (field.tokens ++ n.tokens ++ d.tokensWith (s.child 0) .absent ++
        c.tokensWith (s.child 1) .absent))
  | .table n t k v =>
    s.around (.ofWord (Head.table t).keyword ::
      (field.tokens ++ n.tokens ++ k.tokens (s.child 0) ++ v.tokensWith (s.child 1) .absent))

/-- The tokens of a type. -/
def Ty.tokens (s : Style) (t : Ty) : List Token := t.tokensWith s .absent

/-- The tokens of the sections of a contract with the given code. -/
def Contract.sectionTokens (s : Style) (parameter storage : Ty) (code : List Token) :
    List Token :=
  .ofWord "parameter" :: (parameter.tokens (s.child 0) ++ .mark ';' ::
    .ofWord "storage" :: (storage.tokens (s.child 1) ++ .mark ';' ::
      .ofWord "code" :: (code ++ [.mark ';'])))

mutual

/-- The tokens of a value. -/
def Data.tokens (s : Style) : Data → List Token
  | .int z => s.around [.ofInt z]
  | .string t => s.around [.ofText t]
  | .bytes bs => s.around [.ofBytes bs]
  | .constant c => s.around [.ofWord c.keyword]
  | .wrapped w d => s.around (.ofWord w.keyword :: d.tokens (s.child 0))
  | .pair l r => s.around (.ofWord "Pair" :: (l.tokens (s.child 0) ++ r.tokens (s.child 1)))
  | .seq items => s.around (s.braced (itemTokens s items))
  | .map entries => s.around (s.braced (entryTokens s entries))
  | .code block => s.around (s.braced (stepTokens s block))

/-- The tokens of each item of a sequence. -/
def itemTokens (s : Style) : List Data → List (List Token)
  | [] => []
  | d :: ds => d.tokens (s.child 0) :: itemTokens (s.child 1) ds

/-- The tokens of an entry of a map. -/
def Entry.tokens (s : Style) : Entry → List Token
  | .mk k v => .ofWord "Elt" :: (k.tokens (s.child 0) ++ v.tokens (s.child 1))

/-- The tokens of each entry of a map. -/
def entryTokens (s : Style) : List Entry → List (List Token)
  | [] => []
  | e :: es => e.tokens (s.child 0) :: entryTokens (s.child 1) es

/-- The tokens of a step of a block. -/
def Op.tokens (s : Style) : Op → List Token
  | .prim i => i.tokens s
  | .mac m => m.tokens s
  | .seq block => s.braced (stepTokens s block)

/-- The tokens of each step of a block. -/
def stepTokens (s : Style) : List Op → List (List Token)
  | [] => []
  | o :: os => o.tokens (s.child 0) :: stepTokens (s.child 1) os

/-- The tokens of an instruction. -/
def Instr.tokens (s : Style) : Instr → List Token
  | .plain name => [.ofWord name.mnemonic]
  | .noted name v => .ofWord name.mnemonic :: v.tokens
  | .typed name v t => .ofWord name.mnemonic :: (v.tokens ++ t.tokens (s.child 0))
  | .branch name yes no =>
    .ofWord name.mnemonic ::
      ((s.child 0).braced (stepTokens (s.child 0) yes) ++
        (s.child 1).braced (stepTokens (s.child 1) no))
  | .enclosing name body =>
    .ofWord name.mnemonic :: (s.child 0).braced (stepTokens (s.child 0) body)
  | .traversal name v body =>
    .ofWord name.mnemonic :: (v.tokens ++ (s.child 0).braced (stepTokens (s.child 0) body))
  | .project side v f => .ofWord side.projection :: (v.tokens ++ f.tokens)
  | .inject side t v lf rf ty =>
    .ofWord side.injection ::
      (t.tokens ++ v.tokens ++ lf.tokens ++ rf.tokens ++ ty.tokens (s.child 0))
  | .push v t d =>
    .ofWord Instr.Head.push.mnemonic ::
      (v.tokens ++ t.tokens (s.child 0) ++ d.tokens (s.child 1))
  | .some t v f => .ofWord Instr.Head.some.mnemonic :: (t.tokens ++ v.tokens ++ f.tokens)
  | .none t v f ty =>
    .ofWord Instr.Head.none.mnemonic ::
      (t.tokens ++ v.tokens ++ f.tokens ++ ty.tokens (s.child 0))
  | .unit t v => .ofWord Instr.Head.unit.mnemonic :: (t.tokens ++ v.tokens)
  | .pair t v lf rf =>
    .ofWord Instr.Head.pair.mnemonic :: (t.tokens ++ v.tokens ++ lf.tokens ++ rf.tokens)
  | .nil t v ty =>
    .ofWord Instr.Head.nil.mnemonic :: (t.tokens ++ v.tokens ++ ty.tokens (s.child 0))
  | .emptySet t v c =>
    .ofWord Instr.Head.emptySet.mnemonic :: (t.tokens ++ v.tokens ++ c.tokens (s.child 0))
  | .emptyMap t v c ty =>
    .ofWord Instr.Head.emptyMap.mnemonic ::
      (t.tokens ++ v.tokens ++ c.tokens (s.child 0) ++ ty.tokens (s.child 1))
  | .lambda v d c body =>
    .ofWord Instr.Head.lambda.mnemonic ::
      (v.tokens ++ d.tokens (s.child 0) ++ c.tokens (s.child 1) ++
        (s.child 2).braced (stepTokens (s.child 2) body))
  | .createAccount v w => .ofWord Instr.Head.createAccount.mnemonic :: (v.tokens ++ w.tokens)
  | .createContract v w => .ofWord Instr.Head.createContract.mnemonic :: (v.tokens ++ w.tokens)
  | .originate v w parameter storage code =>
    .ofWord Instr.Head.createContract.mnemonic :: (v.tokens ++ w.tokens ++
      .mark '{' ::
        (Contract.sectionTokens s parameter storage
          ((s.child 2).braced (stepTokens (s.child 2) code)) ++ [.mark '}']))

/-- The tokens of a macro. The notes of a pair tree stand before the other notes,
the variable notes of all leaves before the field notes of all leaves. -/
def Macro.tokens (s : Style) : Macro → List Token
  | .fixed name => [.word (MacroName.fixed name).letters]
  | .compare c v => .word (MacroName.compare c).letters :: v.tokens
  | .ifCompared c yes no =>
    .word (MacroName.ifCompared c).letters ::
      ((s.child 0).braced (stepTokens (s.child 0) yes) ++
        (s.child 1).braced (stepTokens (s.child 1) no))
  | .ifCompare c v yes no =>
    .word (MacroName.ifCompare c).letters ::
      (v.tokens ++ (s.child 0).braced (stepTokens (s.child 0) yes) ++
        (s.child 1).braced (stepTokens (s.child 1) no))
  | .ifSome yes no =>
    .word MacroName.ifSome.letters ::
      ((s.child 0).braced (stepTokens (s.child 0) yes) ++
        (s.child 1).braced (stepTokens (s.child 1) no))
  | .assertCompared c => [.word (MacroName.assertCompared c).letters]
  | .assertCompare c => [.word (MacroName.assertCompare c).letters]
  | .dipDeep depth body =>
    .word (MacroName.dipDeep depth).letters ::
      (s.child 0).braced (stepTokens (s.child 0) body)
  | .dupDeep depth v => .word (MacroName.dupDeep depth).letters :: v.tokens
  | .pairUp shape t v =>
    .word (MacroName.pairUp shape).letters ::
      (shape.leaves.flatMap (fun leaf => leaf.1.tokens) ++
        shape.leaves.flatMap (fun leaf => leaf.2.tokens) ++ t.tokens ++ v.tokens)
  | .unpair shape =>
    .word (MacroName.unpair shape).letters ::
      (shape.leaves.flatMap (fun leaf => leaf.1.tokens) ++
        shape.leaves.flatMap (fun leaf => leaf.2.tokens))
  | .getPath path v f => .word (MacroName.getPath path).letters :: (v.tokens ++ f.tokens)
  | .setPath path v f => .word (MacroName.setPath path).letters :: (v.tokens ++ f.tokens)
  | .mapPath path v f body =>
    .word (MacroName.mapPath path).letters ::
      (v.tokens ++ f.tokens ++ (s.child 0).braced (stepTokens (s.child 0) body))

end

/-- The tokens of a block. -/
def Block.tokens (s : Style) (b : Block) : List Token := s.braced (stepTokens s b)

/-- The tokens of a contract. -/
def Contract.tokens (s : Style) (c : Contract) : List Token :=
  Contract.sectionTokens s c.parameter c.storage (Block.tokens (s.child 2) c.code)

/-- The source text of a contract in a style, with one space between tokens. -/
def Contract.sourceIn (s : Style) (c : Contract) : String :=
  String.ofList (Token.spaced (c.tokens s))

/-- The source text of a contract, with one space between tokens and nothing that is
redundant. -/
def Contract.source (c : Contract) : String := c.sourceIn .plain

end Michelson
