import PathQuery.Main
import PathQuery.Engine.Operation
import PathQuery.Proofs.Session.Coherence
import PathQuery.Proofs.Session.Engine
import PathQuery.Proofs.Session.Transparency
import PathQuery.Proofs.Walk.Branch
import PathQuery.Proofs.Walk.Hop
import PathQuery.Proofs.Walk.Location
import PathQuery.Proofs.Walk.Replay
import PathQuery.Proofs.Path.Glyph
import PathQuery.Proofs.Path.Escaping
import PathQuery.Proofs.Path.Spelling
import PathQuery.Proofs.Path.Trail
import PathQuery.Proofs.Aggregate.Regular
import PathQuery.Proofs.Matching
import PathQuery.Proofs.Requery
import PathQuery.Proofs.CallerBindings
import PathQuery.Proofs.Walk.Route
import PathQuery.Proofs.Attributes
import PathQuery.Proofs.Aggregate.Failures
import PathQuery.Proofs.Configuration
import PathQuery.Proofs.FilterRequery
import PathQuery.Proofs.Session.Contents
import PathQuery.Proofs.Path.Joining
import PathQuery.Proofs.Distinctness
import PathQuery.Proofs.Expressions
import PathQuery.Proofs.Stages
import PathQuery.Proofs.Path.Strictness
import PathQuery.Proofs.Path.Restating
import PathQuery.Proofs.Reduction.Grammar
import PathQuery.Proofs.Path.PartSteps
import PathQuery.Proofs.Aggregate.Extremes
import PathQuery.Proofs.AttributeValue
import PathQuery.Proofs.Session.History
import PathQuery.Proofs.Scopes
import PathQuery.Proofs.Reduction.Substrings
import PathQuery.Proofs.ClauseOrder
import PathQuery.Proofs.Registries
import PathQuery.Proofs.Path.Surroundings
import PathQuery.Proofs.DotBeforeBracket
import PathQuery.Proofs.Placeholders
import PathQuery.Proofs.DottedPaths
import PathQuery.Proofs.FirstMatches
