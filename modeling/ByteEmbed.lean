import ByteEmbed.Declaration.Reformat
import ByteEmbed.FileTree.Edit
import ByteEmbed.FileTree.Embed
import ByteEmbed.FileTree.Listing
import ByteEmbed.Main
import ByteEmbed.Proofs.Grammar.RoundTrip
import ByteEmbed.Proofs.Tree.Failure
import ByteEmbed.Sink
import ByteEmbed.Proofs.Grammar.Canonical
import ByteEmbed.Proofs.Text.Utf8
import ByteEmbed.Proofs.Tree.Walk
import ByteEmbed.Proofs.Tree.ReadBack
import ByteEmbed.Proofs.Tree.Run
import ByteEmbed.Proofs.Tree.Success
import ByteEmbed.Proofs.Tree.Commute
import ByteEmbed.Proofs.CommandLine.Outcome
import ByteEmbed.Proofs.Grammar.Prefix
import ByteEmbed.Proofs.Tree.Overwrite
import ByteEmbed.Proofs.Sink.Unlimited
import ByteEmbed.Proofs.CommandLine.Lines
import ByteEmbed.Proofs.Grammar.Compose
import ByteEmbed.Proofs.CommandLine.Calls
import ByteEmbed.Proofs.Tree.Input
import ByteEmbed.Proofs.Tree.DefaultOutput
import ByteEmbed.Proofs.Layout.Offset
import ByteEmbed.Proofs.Layout.Append
import ByteEmbed.Proofs.CommandLine.Decided
import ByteEmbed.Proofs.Text.Lossy
import ByteEmbed.Proofs.Layout.Reservation
import ByteEmbed.Proofs.Grammar.Cursor
