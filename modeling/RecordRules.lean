import RecordRules.Action.Procedure
import RecordRules.Action.Script
import RecordRules.Condition.Basic
import RecordRules.Condition.Exclusive
import RecordRules.Condition.Reader
import RecordRules.Contract.Basic
import RecordRules.Contract.Payload
import RecordRules.Definition
import RecordRules.Digest.Sha256
import RecordRules.Engine.Basic
import RecordRules.Engine.Change
import RecordRules.Engine.Create
import RecordRules.Engine.Host
import RecordRules.Engine.View
import RecordRules.Event
import RecordRules.Event.Reader
import RecordRules.Failure
import RecordRules.Key
import RecordRules.Keyed
import RecordRules.Number.Binary64
import RecordRules.Number.Decimal
import RecordRules.Number.Scaled
import RecordRules.Path.Basic
import RecordRules.Path.Reader
import RecordRules.Proofs.AcceptedPayloads
import RecordRules.Proofs.AgreeingRules
import RecordRules.Proofs.AskedFields
import RecordRules.Proofs.Atomicity
import RecordRules.Proofs.BarePaths
import RecordRules.Proofs.BreadthFirst
import RecordRules.Proofs.CanonicalText
import RecordRules.Proofs.CascadeLoop
import RecordRules.Proofs.CascadeOrder
import RecordRules.Proofs.CascadeRequests
import RecordRules.Proofs.Clauses
import RecordRules.Proofs.CollectedRecords
import RecordRules.Proofs.CommonValues
import RecordRules.Proofs.CommutingRules
import RecordRules.Proofs.ComposedContracts
import RecordRules.Proofs.ConformingPayloads
import RecordRules.Proofs.Contradictions
import RecordRules.Proofs.CreatedReferences
import RecordRules.Proofs.CreatedRows
import RecordRules.Proofs.CreatedTrees
import RecordRules.Proofs.CreatedViews
import RecordRules.Proofs.DeclaredFields
import RecordRules.Proofs.DepthLimits
import RecordRules.Proofs.DerivedRelations
import RecordRules.Proofs.DispatchFailures
import RecordRules.Proofs.DroppedReferences
import RecordRules.Proofs.DualLookups
import RecordRules.Proofs.EditedShapes
import RecordRules.Proofs.EndlessViews
import RecordRules.Proofs.ExactNumbers
import RecordRules.Proofs.FailedRegistrations
import RecordRules.Proofs.Fingerprints
import RecordRules.Proofs.Frame.Engine
import RecordRules.Proofs.Frame.Pairs
import RecordRules.Proofs.Frame.Step
import RecordRules.Proofs.Frame.Store
import RecordRules.Proofs.FrozenEngines
import RecordRules.Proofs.GeneratedIds
import RecordRules.Proofs.GuardedWrites
import RecordRules.Proofs.HiddenViews
import RecordRules.Proofs.HostFailures
import RecordRules.Proofs.Hydration
import RecordRules.Proofs.IdleEvents
import RecordRules.Proofs.IndependentRules
import RecordRules.Proofs.InitialRows
import RecordRules.Proofs.KnownActions
import RecordRules.Proofs.ListMembership
import RecordRules.Proofs.MergedRows
import RecordRules.Proofs.ModifiedEvents
import RecordRules.Proofs.NameOrder
import RecordRules.Proofs.NestedConditions
import RecordRules.Proofs.NestedScopes
import RecordRules.Proofs.Numerals
import RecordRules.Proofs.ParallelRows
import RecordRules.Proofs.PathGrammar
import RecordRules.Proofs.PayloadTrees
import RecordRules.Proofs.QuietEngines
import RecordRules.Proofs.QuietRuns
import RecordRules.Proofs.Reach
import RecordRules.Proofs.ReachedRows
import RecordRules.Proofs.ReactionWrite
import RecordRules.Proofs.Reading
import RecordRules.Proofs.RegisteredEngines
import RecordRules.Proofs.Registration
import RecordRules.Proofs.RelatedRecords
import RecordRules.Proofs.Rendering
import RecordRules.Proofs.RepeatedDispatch
import RecordRules.Proofs.RepeatedUpdates
import RecordRules.Proofs.RestoredCatalogs
import RecordRules.Proofs.RetouchedRows
import RecordRules.Proofs.RowProperties
import RecordRules.Proofs.RuleAcceptance
import RecordRules.Proofs.RuleDefinitions
import RecordRules.Proofs.SchemaRegistration
import RecordRules.Proofs.ScopedActions
import RecordRules.Proofs.SettledWrites
import RecordRules.Proofs.SplitTexts
import RecordRules.Proofs.StateCheck
import RecordRules.Proofs.StateLoading
import RecordRules.Proofs.StateMerge
import RecordRules.Proofs.StateRuleOrder
import RecordRules.Proofs.StoredRows
import RecordRules.Proofs.TargetSchemas
import RecordRules.Proofs.Traversal
import RecordRules.Proofs.TypedSchemas
import RecordRules.Proofs.UnscopedActions
import RecordRules.Proofs.UpdateDecision
import RecordRules.Proofs.UpdateSteps
import RecordRules.Proofs.ValueEquality
import RecordRules.Proofs.ValueOrder
import RecordRules.Proofs.ViewedTrees
import RecordRules.Proofs.WriteAccount
import RecordRules.Proofs.WrittenCatalogs
import RecordRules.Proofs.WrittenDefinitions
import RecordRules.Proofs.WrittenTexts
import RecordRules.Reaction.Cascade
import RecordRules.Reaction.Dispatch
import RecordRules.Reaction.Waiting
import RecordRules.Record
import RecordRules.Rule.Augmentation
import RecordRules.Rule.Book
import RecordRules.Rule.Reach
import RecordRules.Rule.Reaction
import RecordRules.Rule.State
import RecordRules.Schema.Basic
import RecordRules.Schema.Catalog
import RecordRules.Schema.Field
import RecordRules.Settings
import RecordRules.State.Compiled
import RecordRules.State.Contradiction
import RecordRules.State.Flags
import RecordRules.State.Loading
import RecordRules.Step
import RecordRules.Store.Basic
import RecordRules.Store.Traversal
import RecordRules.Text.Blank
import RecordRules.Text.Digit
import RecordRules.Text.Lowercase
import RecordRules.Text.Printable
import RecordRules.Text.Quoted
import RecordRules.Text.Range
import RecordRules.Text.Similar
import RecordRules.Text.Sorted
import RecordRules.Value.Basic
import RecordRules.Value.Canonical
import RecordRules.Value.Compare
import RecordRules.Value.Display
import RecordRules.Value.Order
import RecordRules.Value.Sum
