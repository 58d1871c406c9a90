/-!
# Nested concepts

`Concept` is a nested concept description of the logic EL: a concept name, a conjunction or an
existential restriction. The empty conjunction is the top concept. `Term` is what a caller may hand
over in place of a concept: it can hold parts that are none of the three.
-/

namespace ConceptUnification

/-- A nested concept description. -/
inductive Concept where
  | name (symbol : String)
  /-- The conjunction of its parts. Without parts it is the top concept. -/
  | conjunction (parts : List Concept)
  /-- The elements that have a successor over `role` in `filler`. -/
  | restriction (role : String) (filler : Concept)
deriving Inhabited

namespace Concept

/-- The concept that holds everywhere. -/
def top : Concept := .conjunction []

mutual

/-- The written form: conjunctions are parenthesised, and the empty one is `⊤`. -/
def text : Concept → String
  | .name symbol => symbol
  | .conjunction [] => "⊤"
  | .conjunction (part :: parts) => "(" ++ part.text ++ textOfFurther parts ++ ")"
  | .restriction role filler => "∃" ++ role ++ "." ++ filler.text

/-- The written form of the second and later parts of a conjunction. -/
def textOfFurther : List Concept → String
  | [] => ""
  | part :: parts => " ⊓ " ++ part.text ++ textOfFurther parts

end

instance : ToString Concept where
  toString := text

/-- The conjunction of a list, where a single part stands for itself. -/
def ofConjuncts : List Concept → Concept
  | [part] => part
  | parts => .conjunction parts

end Concept

/-- A term as callers hand it over. A part that is neither a name, nor a conjunction, nor a
restriction is `unreadable`. -/
inductive Term where
  | name (symbol : String)
  | conjunction (parts : List Term)
  | restriction (role : String) (filler : Term)
  /-- Anything else. -/
  | unreadable
deriving Inhabited

mutual

/-- Every concept is a term. -/
def Concept.toTerm : Concept → Term
  | .name symbol => .name symbol
  | .conjunction parts => .conjunction (Concept.toTerms parts)
  | .restriction role filler => .restriction role filler.toTerm

/-- The terms of a list of concepts. -/
def Concept.toTerms : List Concept → List Term
  | [] => []
  | part :: parts => part.toTerm :: Concept.toTerms parts

end

end ConceptUnification
