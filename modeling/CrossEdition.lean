import CrossEdition.Main
import CrossEdition.Message.Editing
import CrossEdition.CommandLine
import CrossEdition.Proofs.Adaptation.BoundsRoundTrip
import CrossEdition.Proofs.Json.RoundTrip
import CrossEdition.Proofs.Json.Acceptance
import CrossEdition.Proofs.Json.Surrogates
import CrossEdition.Proofs.Command.Validity
import CrossEdition.Proofs.Selector.NormalForm
import CrossEdition.Proofs.Selector.Repetition
import CrossEdition.Proofs.Selector.Detection
import CrossEdition.Proofs.Selector.Regrouping
import CrossEdition.Proofs.Adaptation.MixedBounds
import CrossEdition.Proofs.Adaptation.OpenRanges
import CrossEdition.Proofs.Adaptation.RangesRoundTrip
import CrossEdition.Proofs.Adaptation.JavaVocabulary
import CrossEdition.Proofs.Adaptation.BedrockVocabulary
import CrossEdition.Proofs.Adaptation.CountRoundTrip
import CrossEdition.Proofs.Adaptation.Collisions
import CrossEdition.Proofs.Adaptation.ItemsRoundTrip
import CrossEdition.Proofs.Item.Rereading
import CrossEdition.Proofs.Item.Sites
import CrossEdition.Proofs.Adaptation.DroppedItems
import CrossEdition.Proofs.Message.RoundTrip
import CrossEdition.Proofs.Message.Sessions
import CrossEdition.Proofs.Message.Lossless
import CrossEdition.Proofs.Message.Typing
import CrossEdition.Proofs.Chat.Rendering
import CrossEdition.Proofs.Chat.VisibleText
import CrossEdition.Proofs.Chat.Symbols
import CrossEdition.Proofs.Chat.AdjacentText
import CrossEdition.Proofs.Chat.PlainText
import CrossEdition.Proofs.Chat.SelectorLists
import CrossEdition.Proofs.Command.Reminders
import CrossEdition.Proofs.Chat.ShownMessage
import CrossEdition.Proofs.Chat.Counterparts
import CrossEdition.Proofs.Snbt.NormalForm
import CrossEdition.Proofs.Text.Splitting
import CrossEdition.Proofs.Chat.EscapedEntries
import CrossEdition.Proofs.Selector.PrintedNumbers
import CrossEdition.Proofs.Json.Boundaries
import CrossEdition.Proofs.Snbt.Boundaries
