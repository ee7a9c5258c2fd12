import ElmClient.Text.Blank
import ElmClient.Text.Quoted
import ElmClient.Json.Parser
import ElmClient.Json.Pointer
import ElmClient.GraphQL.Parser.Document
import ElmClient.GraphQL.Parser.TypeSystem
import ElmClient.Schema.Definitions
import ElmClient.Schema.Introspection
import ElmClient.Name
import ElmClient.Elm.Module
import ElmClient.Plan.ResultType
import ElmClient.Plan.ResponseDecoder
import ElmClient.Trail
import ElmClient.Plan.Selection
import ElmClient.Plan.Walk
import ElmClient.Inventory
import ElmClient.Input.Type
import ElmClient.Input.Encoder
import ElmClient.QueryText
import ElmClient.Elm.Shape
import ElmClient.Generation
import ElmClient.Elm.Decoding
import ElmClient.Elm.Encoding
import ElmClient.Elm.Source
import ElmClient.Files.Tree
import ElmClient.Files.Pattern
import ElmClient.Files.Search
import ElmClient.Project
import ElmClient.Command.Arguments
import ElmClient.Command.Run
import ElmClient.Main
import ElmClient.Proofs.Outcome
import ElmClient.Proofs.Plan.Merging
import ElmClient.Proofs.Plan.Derivation
import ElmClient.Proofs.Inventory.Closure
import ElmClient.Proofs.Plan.Coherence
import ElmClient.Proofs.Dictionary
import ElmClient.Proofs.Generation.Declarations
import ElmClient.Proofs.Generation.Provision
import ElmClient.Proofs.Response.Shape
import ElmClient.Proofs.Elm.Decoding
import ElmClient.Proofs.Elm.Faults
import ElmClient.Proofs.Response.Typing
import ElmClient.Proofs.Response.Conformance
import ElmClient.Proofs.Response.Nullability
import ElmClient.Proofs.Schema.WellFormed
import ElmClient.Proofs.Inventory.Enumerations
import ElmClient.Proofs.Generation.CustomTypes
import ElmClient.Proofs.Input.Alignment
import ElmClient.Proofs.Input.Clients
import ElmClient.Proofs.Input.Agreement
import ElmClient.Proofs.Input.Encoding
import ElmClient.Proofs.Elm.References
import ElmClient.Proofs.Plan.References
import ElmClient.Proofs.Input.References
import ElmClient.Proofs.Generation.References
import ElmClient.Proofs.QueryText.RoundTrip
import ElmClient.Proofs.Generation.EnumRoundTrip
import ElmClient.Proofs.Generation.Extensions
import ElmClient.Proofs.QueryText.Strings
import ElmClient.Proofs.Generation.Names
import ElmClient.Proofs.Schema.Sources
import ElmClient.Proofs.Inventory.Resolution
import ElmClient.Proofs.Generation.SelectedFields
import ElmClient.Proofs.Generation.Agreement
import ElmClient.Proofs.Generation.Unreached
import ElmClient.Proofs.Plan.Walk
import ElmClient.Proofs.Generation.Isolation
import ElmClient.Proofs.Schema.Order
import ElmClient.Proofs.Generation.Dispatch
import ElmClient.Proofs.Generation.Presence
import ElmClient.Proofs.Elm.Expansion
import ElmClient.Proofs.Generation.Expansion
import ElmClient.Proofs.Inventory.Discovery
import ElmClient.Proofs.Plan.Additions
import ElmClient.Proofs.Plan.Members
import ElmClient.Proofs.Plan.RequestedKeys
import ElmClient.Proofs.QueryText.SpreadOrder
import ElmClient.Proofs.Input.Lockstep
import ElmClient.Proofs.Input.Unfolding
import ElmClient.Proofs.Generation.SpreadCycles
import ElmClient.Proofs.Response.Positions
import ElmClient.Proofs.Elm.TypeReading
import ElmClient.Proofs.Elm.StringReading
import ElmClient.Proofs.Elm.Literals
import ElmClient.Proofs.Generation.Literals
import ElmClient.Proofs.Elm.Layout
import ElmClient.Proofs.Elm.Shadowing
import ElmClient.Proofs.Elm.ValueReading
import ElmClient.Proofs.Json.Rereading
import ElmClient.Proofs.Json.FirstValue
import ElmClient.Proofs.Layers
import ElmClient.Proofs.Generation.OptionalOnce
