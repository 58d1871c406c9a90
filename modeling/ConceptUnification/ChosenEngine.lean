import ConceptUnification.Config
import ConceptUnification.RuleSearch
import ConceptUnification.SatSearch

/-!
# The engine that a configuration chooses

`ChosenEngine` is the rule search or an enumeration of satisfying assignments, so that a session can
be opened for any configuration.
-/

namespace ConceptUnification

/-- One of the engines, with an oracle of type `ω` for those that need it. -/
inductive ChosenEngine (ω : Type) where
  | rule (search : RuleSearch)
  | sat (search : SatSearch ω)

namespace ChosenEngine

variable {ω : Type}

/-- The engine of an algorithm at its start. -/
def new (goal : Goal) (algorithm : Algorithm) (stepLimit : Nat) (oracle : ω) : ChosenEngine ω :=
  match algorithm with
  | .rule => .rule (.new goal stepLimit)
  | .sat => .sat (.new goal .all oracle stepLimit)
  | .satMinimal => .sat (.new goal .minimal oracle stepLimit)

/-- The engine of a configuration at its start. -/
def ofConfig (goal : Goal) (config : Config) (oracle : ω) : ChosenEngine ω :=
  new goal config.algorithm config.stepLimit oracle

variable [Oracle ω]

instance : Engine (ChosenEngine ω) where
  name
    | .rule search => Engine.name search
    | .sat search => Engine.name search
  next cancelled
    | .rule search => (Engine.next cancelled search).map id .rule
    | .sat search => (Engine.next cancelled search).map id .sat
  info
    | .rule search => Engine.info search
    | .sat search => Engine.info search

/-- The counters in JSON. -/
def statsJson : ChosenEngine ω → JsonValue
  | .rule search => search.memory.stats.toJson
  | .sat search => search.stats.toJson

end ChosenEngine

end ConceptUnification
