import PageEditor.Main
import PageEditor.Proofs.Component.Caching
import PageEditor.Proofs.Component.Confinement
import PageEditor.Proofs.Component.Demand
import PageEditor.Proofs.Component.Direct
import PageEditor.Proofs.Component.HandingOut
import PageEditor.Proofs.Component.Keys
import PageEditor.Proofs.Component.Plans
import PageEditor.Proofs.Component.Snippets
import PageEditor.Proofs.Decimal.Numbers
import PageEditor.Proofs.Decimal.Numerals
import PageEditor.Proofs.Decimal.Rounding
import PageEditor.Proofs.Edit.Additions
import PageEditor.Proofs.Edit.Atomicity
import PageEditor.Proofs.Edit.AttributeEdits
import PageEditor.Proofs.Edit.Committing
import PageEditor.Proofs.Edit.Deletions
import PageEditor.Proofs.Edit.Drafts
import PageEditor.Proofs.Edit.Leaves
import PageEditor.Proofs.Edit.Provenance
import PageEditor.Proofs.Edit.Reloading
import PageEditor.Proofs.Edit.Saving
import PageEditor.Proofs.Edit.Settling
import PageEditor.Proofs.Edit.Soundness
import PageEditor.Proofs.Edit.Steps
import PageEditor.Proofs.Edit.TextEdits
import PageEditor.Proofs.Edit.Timeline
import PageEditor.Proofs.Json.Compact
import PageEditor.Proofs.Json.Numbers
import PageEditor.Proofs.Markup.AddedImports
import PageEditor.Proofs.Markup.Bounds.Imports
import PageEditor.Proofs.Markup.Bounds.Pages
import PageEditor.Proofs.Markup.Bounds.Tags
import PageEditor.Proofs.Markup.Bounds.Tokens
import PageEditor.Proofs.Markup.Canonical
import PageEditor.Proofs.Markup.Cutting
import PageEditor.Proofs.Markup.ExactStyles
import PageEditor.Proofs.Markup.ExactTags
import PageEditor.Proofs.Markup.Fitting
import PageEditor.Proofs.Markup.Imports
import PageEditor.Proofs.Markup.Kept
import PageEditor.Proofs.Markup.Layout
import PageEditor.Proofs.Markup.Lexing
import PageEditor.Proofs.Markup.Lossless
import PageEditor.Proofs.Markup.Mirroring
import PageEditor.Proofs.Markup.Parts
import PageEditor.Proofs.Markup.Pieces
import PageEditor.Proofs.Markup.Printed
import PageEditor.Proofs.Markup.PrintedImports
import PageEditor.Proofs.Markup.Progress
import PageEditor.Proofs.Markup.Quoting
import PageEditor.Proofs.Markup.ReadBack
import PageEditor.Proofs.Markup.ReadPages
import PageEditor.Proofs.Markup.Reading
import PageEditor.Proofs.Markup.Remaining
import PageEditor.Proofs.Markup.Renewed
import PageEditor.Proofs.Markup.Reopening
import PageEditor.Proofs.Markup.Reprinted
import PageEditor.Proofs.Markup.Reread
import PageEditor.Proofs.Markup.Resaving
import PageEditor.Proofs.Markup.Restyled
import PageEditor.Proofs.Markup.Retouched
import PageEditor.Proofs.Markup.Rewritten
import PageEditor.Proofs.Markup.RoundTrip
import PageEditor.Proofs.Markup.SavedChildren
import PageEditor.Proofs.Markup.Standing
import PageEditor.Proofs.Markup.Styles
import PageEditor.Proofs.Markup.SyncedImports
import PageEditor.Proofs.Markup.Tags
import PageEditor.Proofs.Markup.Taken
import PageEditor.Proofs.Markup.TopLevel
import PageEditor.Proofs.Markup.Trivia
import PageEditor.Proofs.Markup.Unchanged
import PageEditor.Proofs.Markup.Written
import PageEditor.Proofs.Node.Outline
import PageEditor.Proofs.Node.Pruned
import PageEditor.Proofs.Node.Sameness
import PageEditor.Proofs.Text.Cuts
import PageEditor.Proofs.Text.Replacing
import PageEditor.Proofs.Tree.Deletions
import PageEditor.Proofs.Tree.Descendants
import PageEditor.Proofs.Tree.Duplicates
import PageEditor.Proofs.Tree.Edits
import PageEditor.Proofs.Tree.Ids
import PageEditor.Proofs.Tree.Leaves
import PageEditor.Proofs.Tree.Moves
import PageEditor.Proofs.Tree.Nodes
import PageEditor.Proofs.Tree.Origins
import PageEditor.Proofs.Tree.Parents
import PageEditor.Proofs.Tree.Places
import PageEditor.Proofs.Tree.Stems
import PageEditor.Proofs.Tree.Subtrees
import PageEditor.Proofs.Tree.WellFormed
import PageEditor.Proofs.Tree.Navigation
import PageEditor.Proofs.Markup.Comments
import PageEditor.Proofs.Markup.QuotedAttributes
import PageEditor.Proofs.Markup.Sealed
import PageEditor.Proofs.Edit.Updates
import PageEditor.Proofs.Digest.Texts
import PageEditor.Proofs.Json.Numerals
import PageEditor.Proofs.Json.Records
import PageEditor.Proofs.Node.Json
import PageEditor.Proofs.Json.RoundTrip
import PageEditor.Proofs.Markup.Animations
import PageEditor.Proofs.Tree.SingleEdits
import PageEditor.Proofs.View.Clicks
import PageEditor.Proofs.Component.Packages
import PageEditor.Proofs.Tree.FreshIds
import PageEditor.Proofs.Edit.Commands
