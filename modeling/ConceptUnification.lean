import ConceptUnification.Assignment
import ConceptUnification.Atom
import ConceptUnification.AtomStore
import ConceptUnification.AtomTables
import ConceptUnification.ChosenEngine
import ConceptUnification.ClauseLearning
import ConceptUnification.Concept
import ConceptUnification.Config
import ConceptUnification.Encoding
import ConceptUnification.Engine
import ConceptUnification.Error
import ConceptUnification.Fingerprint
import ConceptUnification.Formula
import ConceptUnification.Goal
import ConceptUnification.GoalBuilder
import ConceptUnification.JsonText
import ConceptUnification.JsonValue
import ConceptUnification.NormalForm
import ConceptUnification.Ontology
import ConceptUnification.Oracle
import ConceptUnification.OrderedSet
import ConceptUnification.Proofs.AscendingForms
import ConceptUnification.Proofs.AuxiliaryLayers
import ConceptUnification.Proofs.AuxiliaryNames
import ConceptUnification.Proofs.BuilderInvariant
import ConceptUnification.Proofs.BuiltGoal
import ConceptUnification.Proofs.CallHistory
import ConceptUnification.Proofs.CallRun
import ConceptUnification.Proofs.CanonicalExpansion
import ConceptUnification.Proofs.ClosedSolution
import ConceptUnification.Proofs.ConjunctionLaws
import ConceptUnification.Proofs.ConstraintSides
import ConceptUnification.Proofs.CycleCheck
import ConceptUnification.Proofs.DefinitionImport
import ConceptUnification.Proofs.Dependency
import ConceptUnification.Proofs.EagerEffect
import ConceptUnification.Proofs.EncodedGoal
import ConceptUnification.Proofs.EncoderBounds
import ConceptUnification.Proofs.EncoderClosure
import ConceptUnification.Proofs.EncoderRun
import ConceptUnification.Proofs.EncodingComplete
import ConceptUnification.Proofs.EncodingReading
import ConceptUnification.Proofs.EncodingSound
import ConceptUnification.Proofs.EngineAgreement
import ConceptUnification.Proofs.EngineRun
import ConceptUnification.Proofs.EnumerationErrors
import ConceptUnification.Proofs.Evaluation
import ConceptUnification.Proofs.ExhaustiveOracle
import ConceptUnification.Proofs.FlatForm
import ConceptUnification.Proofs.FlatteningMeaning
import ConceptUnification.Proofs.FlatteningPath
import ConceptUnification.Proofs.FlatteningRelation
import ConceptUnification.Proofs.FlatteningTermination
import ConceptUnification.Proofs.GoalSatisfaction
import ConceptUnification.Proofs.GuidedSearch
import ConceptUnification.Proofs.ImportedNames
import ConceptUnification.Proofs.Interpretation
import ConceptUnification.Proofs.JsonExtension
import ConceptUnification.Proofs.JsonRoundTrip
import ConceptUnification.Proofs.LiteralRequests
import ConceptUnification.Proofs.Locality
import ConceptUnification.Proofs.MinimalSolutions
import ConceptUnification.Proofs.ModelConstruction
import ConceptUnification.Proofs.NodeExpansion
import ConceptUnification.Proofs.NodeInvariant
import ConceptUnification.Proofs.NodeOccurrence
import ConceptUnification.Proofs.NormalConjunction
import ConceptUnification.Proofs.NormalOrder
import ConceptUnification.Proofs.NormalSubsumption
import ConceptUnification.Proofs.PatternEnumeration
import ConceptUnification.Proofs.PrivateNames
import ConceptUnification.Proofs.PrunedUnifier
import ConceptUnification.Proofs.ReadBack
import ConceptUnification.Proofs.RuleApplication
import ConceptUnification.Proofs.SatRun
import ConceptUnification.Proofs.Saturation
import ConceptUnification.Proofs.SaturationConfluence
import ConceptUnification.Proofs.SearchAccounting
import ConceptUnification.Proofs.SearchCounters
import ConceptUnification.Proofs.SearchInterruption
import ConceptUnification.Proofs.SearchRun
import ConceptUnification.Proofs.SearchTermination
import ConceptUnification.Proofs.SessionCursor
import ConceptUnification.Proofs.SessionHistory
import ConceptUnification.Proofs.SessionLog
import ConceptUnification.Proofs.SessionOperation
import ConceptUnification.Proofs.SessionRun
import ConceptUnification.Proofs.SessionSearch
import ConceptUnification.Proofs.StepCompleteness
import ConceptUnification.Proofs.StoreHistory
import ConceptUnification.Proofs.StoreInvariant
import ConceptUnification.Proofs.SubsumptionLiterals
import ConceptUnification.Proofs.TableAlignment
import ConceptUnification.Proofs.TableHistory
import ConceptUnification.Proofs.TableSimulation
import ConceptUnification.Proofs.TermValue
import ConceptUnification.Proofs.UndefinedParts
import ConceptUnification.Proofs.UnfoldedTerms
import ConceptUnification.Proofs.UnifierValue
import ConceptUnification.Proofs.UserLiterals
import ConceptUnification.RuleSearch
import ConceptUnification.SatSearch
import ConceptUnification.SearchNode
import ConceptUnification.SearchRule
import ConceptUnification.Session
import ConceptUnification.Statistics
import ConceptUnification.Substitution
import ConceptUnification.Table
import ConceptUnification.Unfolding
import ConceptUnification.Unifier
import ConceptUnification.View
import ConceptUnification.ViewJson
