import Fip.Decb.Isolation
import Fip.Decb.Romfs
import Fip.Decb.Truncation
import Fip.Decb.Deletion
import Fip.Lzw.Width
import Fip.Lzw.Overflow
import Fip.Lzw.Streams
import Fip.Lzw.Soundness
import Fip.Snazzy.Hiding
import Fip.Snazzy.Box
import Fip.Snazzy.Main
import Fip.Slz.RoundTrip
import Fip.Booter.Boot
import Fip.Booter.Mount
import Fip.Booter.DriveWire
import Fip.Booter.Strtok
import Fip.Lwwire.Array
import Fip.Lwwire.Stream
import Fip.Firc.Reply
import Fip.Bfc.SameCode
import Fip.Bfc.Lookup
import Fip.Bfc.Comparisons
import Fip.Useradd.Accounts
import Fip.Useradd.Rewrite
import Fip.Os9sim.Layout
import Fip.Firc.Framing
import Fip.Firc.Editor
import Fip.Firc.Parse
import Fip.Decb.Legal
import Fip.Decb.BootTrack
import Fip.Decb.Hang
import Fip.Core.Structured
import Fip.Core.Nesting
import Fip.Picol.Frames
import Fip.Picol.Loops
import Fip.Picol.Tokens
import Fip.Picol.Numbers
import Fip.Picol.Procedures
import Fip.Picol.Backslash
import Fip.Xxd.RoundTrip
import Fip.Xxd.Plain
import Fip.Xxd.Bounds
