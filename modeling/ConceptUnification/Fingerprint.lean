import ConceptUnification.Formula

/-!
# Fingerprints of formulas

Two formulas with the same clauses, in the same order and with the same order of literals, have the
same fingerprint, and other formulas most likely have another one. It is a hash of 64 bits over the
text that lists the clauses, each as its literals in decimal, ended by a zero and a new line.
-/

namespace ConceptUnification

/-- The hash of a text that continues a text with a given hash. Each byte is mixed in and then
spread by a multiplication. -/
def hashText (hash : UInt64) (text : String) : UInt64 :=
  text.toUTF8.foldl (fun hash byte => (hash ^^^ byte.toUInt64) * 0x100000001b3) hash

/-- The hash of the text of a clause that continues a text with a given hash. -/
def Clause.hash (hash : UInt64) (clause : Clause) : UInt64 :=
  hashText (clause.foldl (fun hash literal => hashText hash (toString literal.toInt ++ " ")) hash)
    "0\n"

/-- The fingerprint of a formula, as sixteen hexadecimal digits. -/
def Formula.fingerprint (formula : Formula) : String :=
  let digits := Nat.toDigits 16 (formula.clauses.foldl Clause.hash 0xcbf29ce484222325).toNat
  String.ofList (List.replicate (16 - digits.length) '0' ++ digits)

end ConceptUnification
