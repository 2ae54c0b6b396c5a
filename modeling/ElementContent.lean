import ElementContent.Content.Language
import ElementContent.Content.Repetition
import ElementContent.Content.Text
import ElementContent.Json.Record
import ElementContent.Occurrence.Attribute
import ElementContent.Registry
import ElementContent.Version
import ElementContent.Wildcard.Attribute
import ElementContent.Proofs.Language.Adjacent
import ElementContent.Proofs.Language.Local
import ElementContent.Proofs.Language.Reading
import ElementContent.Proofs.Language.Power
import ElementContent.Proofs.Text.ReadBack
import ElementContent.Proofs.Text.Blank
import ElementContent.Proofs.Term.Text
import ElementContent.Proofs.Name.Table
import ElementContent.Proofs.Name.Request
import ElementContent.Proofs.Name.Clark
import ElementContent.Proofs.Content.Subtree
import ElementContent.Proofs.Content.Standing
import ElementContent.Proofs.Content.Draft
import ElementContent.Proofs.Content.Tagging
import ElementContent.Proofs.Content.Copy
import ElementContent.Proofs.Content.Spelling
import ElementContent.Proofs.Content.Repetition
import ElementContent.Proofs.Content.Reached
import ElementContent.Proofs.Content.Levels
import ElementContent.Proofs.Content.Expansion
import ElementContent.Proofs.Content.Ledger
import ElementContent.Proofs.Content.Lookup
import ElementContent.Proofs.Content.Session
import ElementContent.Proofs.Content.Outline
import ElementContent.Proofs.Content.Text
import ElementContent.Proofs.Position.Numbering
import ElementContent.Proofs.Position.Analysis
import ElementContent.Proofs.Position.Depth
import ElementContent.Proofs.Position.Shallow
import ElementContent.Proofs.Position.Words
import ElementContent.Proofs.Position.Nesting
import ElementContent.Proofs.Automaton.Alphabet
import ElementContent.Proofs.Automaton.Layout
import ElementContent.Proofs.Automaton.Path
import ElementContent.Proofs.Automaton.StateCount
import ElementContent.Proofs.Automaton.Trim
import ElementContent.Proofs.Automaton.BreadthFirst
import ElementContent.Proofs.Automaton.Quotient
import ElementContent.Proofs.Term.Overlap
import ElementContent.Proofs.Wildcard.Attribute
import ElementContent.Proofs.Attribution.Report
import ElementContent.Proofs.Attribution.Unique
import ElementContent.Proofs.Attribution.Linear
import ElementContent.Proofs.Attribution.Provenance
import ElementContent.Proofs.Attribution.Earliest
import ElementContent.Proofs.Model.Compile
import ElementContent.Proofs.Model.Modes
import ElementContent.Proofs.Model.Expectation
import ElementContent.Proofs.Model.Reserved
import ElementContent.Proofs.Model.Shared
import ElementContent.Proofs.Model.Rendering
import ElementContent.Proofs.Model.Registry
import ElementContent.Proofs.Occurrence.Attribute
import ElementContent.Proofs.Position.Order
import ElementContent.Proofs.Position.Block
import ElementContent.Proofs.Position.Recipe
import ElementContent.Proofs.Automaton.FlatTable
import ElementContent.Proofs.Automaton.TableRun
import ElementContent.Proofs.Model.InRange
