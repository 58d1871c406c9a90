import ConceptUnification.Concept

/-!
# Background definitions

An ontology assigns definitions to concept names. A definition either fixes the meaning of its name
or, if it is primitive, only bounds it from above. Bodies may refer to each other in cycles.
-/

namespace ConceptUnification

/-- The definition of a concept name by a body of type `β`. -/
structure BackgroundDefinition (β : Type) where
  symbol : String
  /-- What the name is defined to be. -/
  body : β
  /-- The body only bounds the name from above. -/
  primitive : Bool

/-- Definitions of concept names, at most one for each name. -/
structure Ontology (β : Type) where
  /-- The definitions in the order in which their names were first defined. -/
  definitions : List (BackgroundDefinition β)

namespace Ontology

variable {β : Type}

/-- The ontology without definitions. -/
def empty : Ontology β := ⟨[]⟩

instance : EmptyCollection (Ontology β) where
  emptyCollection := empty

instance : Inhabited (Ontology β) where
  default := ∅

/-- The definition of a name. -/
def find? (ontology : Ontology β) (symbol : String) : Option (BackgroundDefinition β) :=
  ontology.definitions.find? (·.symbol == symbol)

/-- Adds a definition in place of the one that the name had before. -/
def insert (ontology : Ontology β) (definition : BackgroundDefinition β) : Ontology β :=
  if ontology.definitions.any (·.symbol == definition.symbol) then
    ⟨ontology.definitions.map fun old =>
      if old.symbol == definition.symbol then definition else old⟩
  else
    ⟨ontology.definitions ++ [definition]⟩

/-- The number of defined names. -/
def size (ontology : Ontology β) : Nat :=
  ontology.definitions.length

/-- The ontology without the definition of a name. -/
def erase (ontology : Ontology β) (symbol : String) : Ontology β :=
  ⟨ontology.definitions.filter (·.symbol != symbol)⟩

theorem size_erase_lt {ontology : Ontology β} {symbol : String}
    {definition : BackgroundDefinition β} (found : ontology.find? symbol = some definition) :
    (ontology.erase symbol).size < ontology.size := by
  have member := List.mem_of_find?_eq_some found
  have named := List.find?_some found
  refine List.length_filter_lt_length_iff_exists.mpr ⟨definition, member, ?_⟩
  simpa using named

end Ontology

end ConceptUnification
