import LispScript.CommandLine
import LispScript.Main
import LispScript.Proofs.Invariant
import LispScript.Proofs.Growth
import LispScript.Proofs.Objects
import LispScript.Proofs.Outcome
import LispScript.Proofs.Builtin
import LispScript.Proofs.Calls
import LispScript.Proofs.Activation
import LispScript.Proofs.Expressions
import LispScript.Proofs.Statements
import LispScript.Proofs.Signals
import LispScript.Proofs.LocalFunctions
import LispScript.Proofs.Parameters
import LispScript.Proofs.Keywords
import LispScript.Proofs.Soundness
import LispScript.Proofs.Resolution
import LispScript.Proofs.Extent
import LispScript.Proofs.Forms
import LispScript.Proofs.Cleanup
import LispScript.Proofs.Quiet
import LispScript.Proofs.Assigned
import LispScript.Proofs.Stability
import LispScript.Proofs.Sparing
import LispScript.Proofs.SparingForms
import LispScript.Proofs.Additions
import LispScript.Proofs.Depth
import LispScript.Proofs.Standing
import LispScript.Proofs.Interception
import LispScript.Proofs.Catch
import LispScript.Proofs.Tagbody
import LispScript.Proofs.Jumps
import LispScript.Proofs.Block
import LispScript.Proofs.Registry
import LispScript.Proofs.Numeral
import LispScript.Proofs.Spelling
import LispScript.Proofs.Copies
import LispScript.Proofs.ReadBack
import LispScript.Proofs.PrintedSymbols
import LispScript.Proofs.Interning
import LispScript.Proofs.Bodies
import LispScript.Proofs.Escapes
import LispScript.Proofs.Inlining
import LispScript.Proofs.Isolation
import LispScript.Proofs.LambdaLists
import LispScript.Proofs.Receiving
import LispScript.Proofs.ArgumentLoops
import LispScript.Proofs.Defaults
import LispScript.Proofs.ArgumentBinding
import LispScript.Proofs.ParameterPassing
import LispScript.Proofs.LambdaCalls
import LispScript.Proofs.Concatenation
import LispScript.Proofs.Compilation
import LispScript.Proofs.Histories
import LispScript.Proofs.RenderedScripts
import LispScript.Proofs.DefaultScopes
import LispScript.Proofs.QuotedData
import LispScript.Proofs.LambdaListGrammar
import LispScript.Proofs.ReadingSteps
import LispScript.Proofs.ReadingRules
import LispScript.Proofs.Lexemes
import LispScript.Proofs.BlockComments
import LispScript.Proofs.WrittenData
import LispScript.Proofs.FeatureGuards
import LispScript.Proofs.Midway
import LispScript.Proofs.Rebinding
import LispScript.Proofs.Resumption
import LispScript.Proofs.Proclamations
import LispScript.Proofs.SpecialVariables
import LispScript.Proofs.DynamicBindings
import LispScript.Proofs.DroppedConstants
import LispScript.Proofs.Equalities
import LispScript.Proofs.LexicalModes
import LispScript.Proofs.Spacing
import LispScript.Proofs.SpacedReading
import LispScript.Proofs.TypedLines
import LispScript.Proofs.ElementAccess
import LispScript.Proofs.GeneratedNames
import LispScript.Proofs.Lowering
import LispScript.Proofs.Nesting
import LispScript.Proofs.Rereading
import LispScript.Proofs.Spreading
import LispScript.Proofs.Sublists
import LispScript.Proofs.Destructuring
import LispScript.Proofs.Afterwards
import LispScript.Proofs.NamedBodies
import LispScript.Proofs.Expanders
import LispScript.Proofs.Tags
import LispScript.Proofs.Arrival
import LispScript.Proofs.LispValues
