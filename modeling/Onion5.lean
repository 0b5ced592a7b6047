import Onion5.Common.CutFrames
import Onion5.Client.Login
import Onion5.Client.Buffers
import Onion5.Client.Confidentiality
import Onion5.Client.RoundTrip
import Onion5.Client.GpgStrings
import Onion5.Client.Extinction
import Onion5.Client.Progress
import Onion5.Client.Collusion
import Onion5.Server.Deployment
import Onion5.Server.Listener
import Onion5.Server.Envelopes
