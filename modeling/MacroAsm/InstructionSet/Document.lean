import MacroAsm.InstructionSet.Table
import MacroAsm.Toml.Datum

/-!
# Documents of instruction sets

An instruction set may be written as a document with a table `instruction` for every form: its mnemonic, the
spelling of its operands, and its code as hexadecimal digits.
-/

namespace MacroAsm

namespace InstructionSet

/-- The shape of the document. -/
def shape : Toml.Shape :=
  .record [("instruction",
    .list (.record [("mnemonic", .text), ("operands", .list .text), ("code", .text)]))]

/-- The descriptor of a form. -/
def descriptorOf (d : Toml.Datum) : Descriptor :=
  ⟨(d.get "mnemonic").asText, (d.get "operands").asTexts, (d.get "code").asText⟩

/-- The descriptors of a document, if it is one of an instruction set. -/
def descriptors? (decode : Toml.Decoder) (document : Text) : Option (List Descriptor) :=
  (decode shape document).map fun d => (d.get "instruction").items.map descriptorOf

/-- The wording of a document that is not one of an instruction set. -/
def malformed : Text := "invalid instruction table"

/-- The instruction set of a document. -/
def ofDocument (decode : Toml.Decoder) (similarity : Similarity) (document : Text) : Except Text InstructionSet :=
  match descriptors? decode document with
  | none => .error malformed
  | some ds =>
    match compile similarity ds with
    | .ok t => .ok t
    | .error e => .error e.message

end InstructionSet

end MacroAsm
